import Bolt.RadixSort.KeyDecodeRecords
import Bolt.RadixSort.SorterStorage
import Mathlib.Algebra.GroupWithZero.Nat
import Mathlib.Data.List.Perm.Basic

/-!
# From the input of a run to its output

Whatever the batches and the pieces asked for are, the pieces that `getOutput` returns are
cut from one list: the rows that were appended, with their payloads, in the SQL order of
their keys.
-/

namespace Bolt.RadixSort

open Std Data Lib Lib.Sorting Lib.OrderCode Lib.Traverse List

variable {S : ComparisonSort} {M : ComparisonMerge} {codec : RadixSortKeyCodec} {layout : RadixSortKeyLayout}

/-! ## The order of the stored keys -/

/-- What is written behind a code word may depend on the word. -/
private theorem compare_followed {α : Type} {P : α → Prop} {cmp : α → α → Ordering} {enc : α → List UInt8}
    (h : OrderCodeOn P cmp enc) {a b : α} (ha : P a) (hb : P b) (rest : List UInt8 → List UInt8) :
    compare (enc a ++ rest (enc a)) (enc b ++ rest (enc b)) = cmp a b := by
  rw [h a b ha hb]
  cases hc : cmp a b with
  | eq =>
    have he : enc a = enc b := LawfulEqOrd.eq_of_compare ((h.compare_eq ha hb).trans hc)
    rw [he, ReflOrd.compare_self]
    rfl
  | _ => rfl

private theorem padTo_append_drop (capacity : ℕ) (key : List UInt8) :
    padTo capacity key ++ key.drop capacity = key ++ replicate (capacity - key.length) 0 := by
  rcases Nat.le_total key.length capacity with hl | hl
  · rw [padTo_eq, take_of_length_le hl, drop_eq_nil_of_le hl, append_nil]
  · rw [padTo_eq, Nat.sub_eq_zero_of_le hl, length_take, Nat.min_eq_left hl, Nat.sub_self, replicate_zero,
      append_nil, append_nil, take_append_drop]

section Records

variable {types : List SqlType} {flags : List CompareFlags} (hbind : bind types flags = .ok codec) {hasPayload : Bool}
  (hlayout : createLayout codec hasPayload = .ok layout)

include hbind hlayout in
theorem suffix_appendRow (hv : layout.kind.isVariable = true) {flat : Bool} {row : KeyRow codec.columns} {payload : ℕ}
    {record : KeyRecord layout.kind} (h : appendRow S codec layout flat row payload = .ok record) :
    record.encodedBytes = padTo layout.kind.inlineCapacity (encodedKey S codec layout row) ∧
      record.suffix layout.heapKeyOffset layout.kind.inlineCapacity =
        (encodedKey S codec layout row).drop layout.kind.inlineCapacity ∧
      record.size = (encodedKey S codec layout row).length := by
  have ho := bind_prefixOffsets hbind
  have hf := (createLayout_fits hlayout).1
  rw [appendRow, if_pos hv] at h
  obtain rfl := Except.ok.inj h
  have hs := appendVariable_size (S := S) ho hf hv row payload
  refine ⟨?_, ?_, hs⟩
  · rw [KeyRecord.encodedBytes, if_pos hv, appendVariable_inlineBytes ho hf hv]
  · obtain ⟨hle, encoded, hl, -, hk⟩ := encodedKey_eq_append (S := S) ho hf hv row
    rw [KeyRecord.suffix, hs, KeyRecord.heapBytes, hk, drop_append, drop_eq_nil_of_le (by omega), nil_append, hl]
    apply ext_getElem
    · rw [length_map, length_range, length_append, length_drop]
      omega
    · intro i hi hi'
      have hn := hi'
      rw [length_drop] at hn
      rw [getElem_map, getElem_range, getElem_drop]
      exact getD_eq_getElem (encodeSuffixColumns S codec.columns _ row) 0 (by omega)

variable {l r : KeyRow codec.columns} {flat flat' : Bool} {payload payload' : ℕ} {left right : KeyRecord layout.kind}

include hbind hlayout in
/-- The bytes of two stored keys, inline and in the heap, compare as the rows do in SQL. -/
theorem storedKeyOrder_appendRow (hl : OrdinaryRow codec.columns l) (hr : OrdinaryRow codec.columns r)
    (hleft : appendRow S codec layout flat l payload = .ok left)
    (hright : appendRow S codec layout flat' r payload' = .ok right) :
    storedKeyOrder layout.heapKeyOffset left right = sqlOrderRow S codec.columns l r := by
  have hc : OrderCodeOn (OrdinaryRow codec.columns) (sqlOrderRow S codec.columns) (encodedKey S codec layout) :=
    orderCodeOn_encodeColumns S codec.columns (prefixColumnCount codec layout)
  have hpad := compare_followed hc hl hr fun key => replicate (layout.kind.inlineCapacity - key.length) 0
  rw [storedKeyOrder]
  cases hv : layout.kind.isVariable with
  | false =>
    have hk : encodedKey S codec layout = encodeColumns S codec.columns 0 := by
      funext row
      rw [encodedKey, prefixColumnCount, hv]
      rfl
    rw [hk] at hpad
    rw [if_neg (by decide), Ordering.then_eq, fixed_encodedBytes hbind hlayout hleft hv,
      fixed_encodedBytes hbind hlayout hright hv]
    exact hpad
  | true =>
    obtain ⟨hb, hs, hn⟩ := suffix_appendRow hbind hlayout hv hleft
    obtain ⟨hb', hs', hn'⟩ := suffix_appendRow hbind hlayout hv hright
    rw [if_pos rfl, suffixOrder, hb, hb', hs, hs', hn, hn', ← Ordering.then_assoc,
      ← compare_append (by rw [length_padTo, length_padTo]), padTo_append_drop, padTo_append_drop]
    rw [hpad]
    -- equal rows have keys of one length
    cases hcmp : sqlOrderRow S codec.columns l r with
    | eq =>
      have he : encodedKey S codec layout l = encodedKey S codec layout r :=
        LawfulEqOrd.eq_of_compare ((hc.compare_eq hl hr).trans hcmp)
      rw [he, ReflOrd.compare_self]
      rfl
    | _ => rfl

theorem payload_appendRow {row : KeyRow codec.columns} {record : KeyRecord layout.kind}
    (h : appendRow S codec layout flat row payload = .ok record) :
    record.payload = if layout.kind.hasPayload then payload else 0 := by
  rw [appendRow] at h
  split at h
  · rw [← Except.ok.inj h]
    rfl
  · rw [appendFixed_eq h]
    rfl

end Records

/-! ## The rows behind the records -/

/-- A record that `append` made of a row with its payload. -/
def StoredAs (S : ComparisonSort) (row : KeyRow codec.columns × ℕ) (record : KeyRecord layout.kind) : Prop :=
  ∃ flat, appendRow S codec layout flat row.1 row.2 = .ok record

/-- A run stores the rows in their order, and its flag says that the keys end in the record. -/
structure Holds (S : ComparisonSort) (run : RadixSortRun codec layout) (rows : List (KeyRow codec.columns × ℕ)) :
    Prop where
  stored : Forall₂ (StoredAs S) rows run.storage.toList
  fits : run.variableKeysFitRadixPrefix = true → ∀ record ∈ run.storage.toList, record.size ≤ layout.radixWidth
  flags_length : run.keyMayHaveNulls.length = codec.columns.length
  flagged : ∀ row ∈ rows, NullsFlagged codec.columns run.keyMayHaveNulls row.1

section Appended

variable {run run' : RadixSortRun codec layout} {rows : List (KeyRow codec.columns × ℕ)}

theorem holds_create (options : RadixSortRunOptions codec) : Holds S (RadixSortRun.create codec layout options) [] where
  stored := .nil
  fits := by simp [RadixSortRun.create, Segments.toList, Segments.empty]
  flags_length := options.length_keyMayHaveNulls
  flagged := fun _ h => absurd h not_mem_nil

variable (hf : LayoutFits codec layout) (h : Holds S run rows)
include hf h

theorem Holds.append {batch : KeyBatch codec.columns} (hok : run.append S batch = .ok run') :
    Holds S run' (rows ++ batch.rows) := by
  unfold RadixSortRun.append at hok
  split at hok
  · cases hok
  split at hok
  · rename_i he
    obtain rfl := Except.ok.inj hok
    rwa [he, append_nil]
  cases hm : batch.rows.mapM fun row => appendRow S codec layout batch.flat row.1 row.2 with
  | error e =>
    rw [hm] at hok
    cases hok
  | ok records =>
    rw [hm] at hok
    obtain rfl := Except.ok.inj hok
    have hst : Forall₂ (StoredAs S) batch.rows records := (mapM_eq_ok_iff.mp hm).imp fun _ _ h => ⟨_, h⟩
    refine ⟨?_, fun hfit record hr => ?_, ?_, fun row hr => ?_⟩
    · rw [Segments.append_toList]
      exact rel_append h.stored hst
    · dsimp only at hfit
      rw [Segments.append_toList] at hr
      rcases mem_append.mp hr with ho | hn
      · refine h.fits ?_ record ho
        split at hfit
        · exact (Bool.and_eq_true_iff.mp hfit).1
        · exact hfit
      · obtain ⟨row, -, flat, hrow⟩ := exists_of_mem_right hst hn
        rw [appendRow] at hrow
        split at hrow
        · rename_i hv
          rw [if_pos hv] at hfit
          have hb : RadixSortRun.batchMaximumEncodedKeySize layout records ≤ layout.kind.inlineCapacity :=
            of_decide_eq_true (Bool.and_eq_true_iff.mp hfit).2
          have hh := (heap_le_foldl records 0).2 record hn
          obtain rfl := Except.ok.inj hrow
          rw [hf.variable_width hv]
          exact Nat.le_trans (Nat.add_le_add_left hh _) hb
        · rw [appendFixed_eq hrow]
          exact Nat.zero_le _
    · rw [length_zipWith, h.flags_length, batch.mayHaveNulls_length, Nat.min_self]
    · refine nullsFlagged_or _ _ _ h.flags_length batch.mayHaveNulls_length row.1 ?_
      rcases mem_append.mp hr with ho | hn
      · exact .inl (h.flagged row ho)
      · exact .inr (batch.nulls_flagged row hn)

theorem Holds.appendAll {batches : List (KeyBatch codec.columns)} (hok : run.appendAll S batches = .ok run') :
    Holds S run' (rows ++ batches.flatMap KeyBatch.rows) := by
  induction batches generalizing run rows with
  | nil =>
    obtain rfl := Except.ok.inj hok
    rwa [flatMap_nil, append_nil]
  | cons batch batches ih =>
    obtain ⟨next, hb, hrest⟩ := exists_append_of_appendAll hok
    rw [flatMap_cons, ← append_assoc]
    exact ih (h.append hf hb) hrest

end Appended

/-! ## Sorting and output -/

/-- "RadixSortRun output requires a finalized run", or a key that does not decode. -/
inductive OutputError where
  | notFinalized
  | decode (error : DecodeError)

namespace RadixSortRun

variable (run : RadixSortRun codec layout)

/-- `none` is a run that is not building ("RadixSortRun can be finalized only once"). The
codec saw no NaN and no negative zero, so that the sorter gets none. -/
def finalize (S : ComparisonSort) (M : ComparisonMerge) (uninitialized : ℕ → ℕ) : Option (RadixSortRun codec layout) :=
  if run.state ≠ .building then none
  else
    (RadixSortRunSorter.sort S M layout uninitialized run.skippableValidityOffsets run.storage).map fun storage =>
      { run with storage := storage, state := .sortedInMemory }

def clear : RadixSortRun codec layout := { run with storage := .empty, state := .consumed }

/-- The rows are the decoded keys with the gathered payloads, `none` is the null pointer, and
the last component is the new `outputPosition_`. -/
def getOutput (outputPosition maxRows : ℕ) :
    Except OutputError (Option (List (KeyRow codec.columns × ℕ)) × RadixSortRun codec layout × ℕ) :=
  match run.state with
  | .consumed => .ok (none, run, outputPosition)
  | .building => .error .notFinalized
  | .sortedInMemory =>
    if outputPosition = run.storage.toList.length then .ok (none, run.clear, outputPosition)
    else
      let count := min (run.storage.toList.length - outputPosition) maxRows
      let records := (run.storage.toList.drop outputPosition).take count
      match decodeKeys codec layout run.variableKeysFitRadixPrefix run.keyMayHaveNulls records with
      | .error error => .error (.decode error)
      | .ok keys =>
        .ok (some (keys.zip (records.map KeyRecord.payload)),
          if outputPosition + count = run.storage.toList.length then run.clear else run, outputPosition + count)

/-- The rows of a sequence of calls. -/
def getOutputs (run : RadixSortRun codec layout) (outputPosition : ℕ) :
    List ℕ → Except OutputError (List (KeyRow codec.columns × ℕ))
  | [] => .ok []
  | maxRows :: later =>
    match run.getOutput outputPosition maxRows with
    | .error error => .error error
    | .ok (rows, run, outputPosition) => (run.getOutputs outputPosition later).map (rows.getD [] ++ ·)

end RadixSortRun

private theorem mem_of_getLsbD {offset : ℕ} (offsets : List ℕ) (mask : BitVec 32)
    (h : (offsets.foldl (fun mask o => mask ||| 1#32 <<< o) mask).getLsbD offset = true) :
    mask.getLsbD offset = true ∨ offset ∈ offsets := by
  induction offsets generalizing mask with
  | nil => exact .inl h
  | cons o offsets ih =>
    rcases ih _ h with h | h
    · rw [BitVec.getLsbD_or, Bool.or_eq_true, BitVec.getLsbD_shiftLeft, BitVec.getLsbD_one] at h
      rcases h with h | h
      · exact .inl h
      · simp only [Bool.and_eq_true, Bool.not_eq_true', decide_eq_true_eq, decide_eq_false_iff_not] at h
        obtain rfl : offset = o := by omega
        exact .inr mem_cons_self
    · exact .inr (mem_cons_of_mem _ h)

/-- The offsets that `finalize` passes are sound to skip. -/
theorem skipsSound_skippable {run : RadixSortRun codec layout} {uninitialized : ℕ → ℕ} (ho : PrefixOffsets 0 codec.columns)
    (hf : LayoutFits codec layout) (hr : RunInvariant S (FullWidthRow layout.radixWidth codec.columns
      run.currentRunKeyMayHaveNulls 0) run) :
    SkipsSound (kernelFor layout uninitialized run.skippableValidityOffsets) run.storage.toList := by
  intro offset hlt hskip left hl right hr'
  have hcap : layout.kind.inlineCapacity ≤ 32 := by cases layout.kind <;> decide
  have hle := radixByteLimit_le layout.kind (layout.kind.isVariable && layout.radixWidth == layout.kind.inlineCapacity)
  have hbit : (skippableMask run.skippableValidityOffsets).getLsbD offset = true := by
    by_contra hno
    have hz := (and_mask_eq_zero (skippableMask run.skippableValidityOffsets)
      (show offset < 32 from Nat.lt_of_lt_of_le hlt (hle.trans hcap))).mpr (Bool.not_eq_true _ ▸ hno)
    exact (bne_iff_ne.mp hskip) hz
  rcases mem_of_getLsbD _ _ hbit with hz | hm
  · simp at hz
  · obtain ⟨byte, hb⟩ := skippable_byte_eq ho hf hr hm
    exact (hb left hl).trans (hb right hr').symm

theorem coversNulls_of_flagged : (columns : List RadixSortKeyColumn) → (∀ column ∈ columns, column.type ≠ .unknown) →
    (flags : List Bool) → (row : KeyRow columns) → NullsFlagged columns flags row → CoversNulls columns flags row
  | [], _, _, _, _ => trivial
  | _ :: _, _, [], _, h => h.elim
  | column :: columns, hk, flag :: flags, (value, values), ⟨hv, ht⟩ => by
    refine ⟨fun hf hn => ?_, coversNulls_of_flagged columns (fun c hc => hk c (mem_cons_of_mem _ hc)) flags values ht⟩
    rcases hv hf with hu | hs
    · exact hk column mem_cons_self hu
    · rw [hn] at hs
      cases hs

/-- An order of the records is one of the rows they store. -/
private theorem pairwise_rows {α β : Type} {R : α → β → Prop} {P : α → α → Prop} {Q : β → β → Prop} {l : List α}
    {m : List β} (h : Forall₂ R l m) (hq : m.Pairwise Q) (hp : ∀ a b c d, R a c → R b d → Q c d → P a b) :
    l.Pairwise P := by
  induction h with
  | nil => exact .nil
  | @cons a c l m ha ht ih =>
    obtain ⟨hc, hm⟩ := pairwise_cons.mp hq
    refine pairwise_cons.mpr ⟨fun b hb => ?_, ih hm⟩
    obtain ⟨d, hd, hr⟩ := exists_of_mem_left ht hb
    exact hp a b c d ha hr (hc d hd)

namespace RadixSortRun

variable {run : RadixSortRun codec layout}

theorem getOutputs_consumed (h : run.state = .consumed) (start : ℕ) (sizes : List ℕ) :
    run.getOutputs start sizes = .ok [] := by
  induction sizes with
  | nil => rfl
  | cons maxRows later ih =>
    rw [getOutputs, getOutput, h]
    dsimp only
    rw [ih]
    rfl

section Sorted

variable (hs : run.state = .sortedInMemory) {rows : List (KeyRow codec.columns × ℕ)}
  (hl : rows.length = run.storage.toList.length)
  (hd : ∀ start count, decodeKeys codec layout run.variableKeysFitRadixPrefix run.keyMayHaveNulls
      ((run.storage.toList.drop start).take count) = .ok (((rows.drop start).take count).map Prod.fst))
  (hp : run.storage.toList.map KeyRecord.payload = rows.map Prod.snd)
include hs hl hd hp

theorem getOutput_spec {start : ℕ} (hne : start ≠ rows.length) (maxRows : ℕ) :
    run.getOutput start maxRows = .ok (some ((rows.drop start).take (min (rows.length - start) maxRows)),
      if start + min (rows.length - start) maxRows = rows.length then run.clear else run,
      start + min (rows.length - start) maxRows) := by
  have hg : ((run.storage.toList.drop start).take (min (rows.length - start) maxRows)).map KeyRecord.payload =
      ((rows.drop start).take (min (rows.length - start) maxRows)).map Prod.snd := by
    rw [map_take, map_drop, hp, ← map_drop, ← map_take]
  rw [getOutput, hs, ← hl]
  dsimp only
  rw [if_neg hne, hd]
  dsimp only
  rw [hg, ← zip_of_prod rfl rfl]

/-- Every call takes the next rows of the list that the records decode to. -/
theorem getOutputs_spec (sizes : List ℕ) {start : ℕ} (hle : start ≤ rows.length) :
    run.getOutputs start sizes = .ok ((rows.drop start).take sizes.sum) := by
  induction sizes generalizing start with
  | nil => rfl
  | cons maxRows later ih =>
    rw [getOutputs, sum_cons]
    by_cases he : start = rows.length
    · rw [getOutput, hs, ← hl]
      dsimp only
      rw [if_pos he]
      dsimp only
      rw [getOutputs_consumed rfl, he, drop_length, take_nil]
      rfl
    · rw [getOutput_spec hs hl hd hp he]
      dsimp only
      split_ifs with hc
      · rw [getOutputs_consumed rfl, take_of_length_le (by rw [length_drop]; omega),
          take_of_length_le (by rw [length_drop]; omega)]
        exact congrArg Except.ok (append_nil _)
      · have hm : min (rows.length - start) maxRows = maxRows := by omega
        rw [hm] at hc ⊢
        rw [ih (by omega), take_add, drop_drop]
        rfl

end Sorted

end RadixSortRun

section Lifecycle

variable {types : List SqlType} {flags : List CompareFlags} (hbind : bind types flags = .ok codec) {hasPayload : Bool}
  (hlayout : createLayout codec hasPayload = .ok layout) {run : RadixSortRun codec layout}
  {rows : List (KeyRow codec.columns × ℕ)} (h : Holds S run rows)
include hbind hlayout h

/-- `finalize` permutes the rows behind the records into their SQL order. -/
theorem Holds.finalize (M : ComparisonMerge) (uninitialized : ℕ → ℕ) (hb : run.state = .building)
    (hs : SkipsSound (kernelFor layout uninitialized run.skippableValidityOffsets) run.storage.toList)
    (hin : ∀ row ∈ rows, OrdinaryRow codec.columns row.1) :
    ∃ sorted rows', run.finalize S M uninitialized = some sorted ∧ sorted.state = .sortedInMemory ∧
      Holds S sorted rows' ∧ rows'.Perm rows ∧
      rows'.Pairwise fun earlier later => (sqlOrderRow S codec.columns earlier.1 later.1).isLE := by
  obtain ⟨storage, hsort, hperm, hpair⟩ := RadixSortRunSorter.sort_spec S M layout uninitialized run.storage hs
  obtain ⟨rows', hst, hrp⟩ := perm_comp_forall₂ hperm h.stored.flip
  have hst := hst.flip
  refine ⟨{ run with storage := storage, state := .sortedInMemory }, rows', ?_, rfl, ⟨hst, ?_, h.flags_length, ?_⟩,
    hrp, ?_⟩
  · rw [RadixSortRun.finalize, if_neg (not_not.mpr hb), hsort]
    rfl
  · exact fun hfit record hr => h.fits hfit record (hperm.mem_iff.mp hr)
  · exact fun row hr => h.flagged row (hrp.mem_iff.mp hr)
  · have hall := (forall₂_and_left _ _).mpr ⟨fun row hr => hin row (hrp.mem_iff.mp hr), hst⟩
    refine pairwise_rows hall hpair fun a b left right ⟨ha, flat, hl⟩ ⟨hb, flat', hr⟩ hle => ?_
    rw [← storedKeyOrder_appendRow hbind hlayout ha hb hl hr, ← signOf_compareKeys]
    refine Ordering.isLE_iff_ne_gt.mpr fun hg => ?_
    have hpos := Int.compare_eq_gt.mp hg
    omega

theorem Holds.getOutputs (hs : run.state = .sortedInMemory) (hknown : ∀ column ∈ codec.columns, column.type ≠ .unknown)
    (sizes : List ℕ) : run.getOutputs 0 sizes = .ok ((rows.take sizes.sum).map fun row =>
      (sortedRow S codec.columns row.1, if layout.kind.hasPayload then row.2 else 0)) := by
  have hp : Forall₂ Eq (run.storage.toList.map KeyRecord.payload) ((rows.map fun row =>
      (sortedRow S codec.columns row.1, if layout.kind.hasPayload then row.2 else 0)).map Prod.snd) := by
    rw [map_map, forall₂_map_left_iff, forall₂_map_right_iff]
    exact h.stored.flip.imp fun record row ⟨flat, hr⟩ => payload_appendRow hr
  rw [forall₂_eq_eq_eq] at hp
  rw [RadixSortRun.getOutputs_spec hs (by rw [length_map]; exact h.stored.length_eq) ?_ hp sizes (Nat.zero_le _),
    drop_zero, map_take]
  intro start count
  have hslice : Forall₂ (fun row record => ∃ flat payload, appendRow S codec layout flat row payload = .ok record)
      (((rows.drop start).take count).map Prod.fst) ((run.storage.toList.drop start).take count) := by
    rw [forall₂_map_left_iff]
    exact forall₂_take count (forall₂_drop start (h.stored.imp fun row record ⟨flat, hr⟩ => ⟨flat, row.2, hr⟩))
  rw [decodeKeys_appendRow hbind hlayout hslice ?_ ?_, map_map, ← map_drop, ← map_take, map_map]
  · rfl
  · intro row hr
    obtain ⟨row, hm, rfl⟩ := mem_map.mp hr
    exact coversNulls_of_flagged _ hknown _ _ (h.flagged row (mem_of_mem_drop (mem_of_mem_take hm)))
  · exact fun hfit record hr => h.fits hfit record (mem_of_mem_drop (mem_of_mem_take hr))

end Lifecycle

/-- A run gives back the rows of its batches with their payloads, in the SQL order of the
keys: it is built and sorted, and a sequence of calls returns as many rows as it asks for,
or all of them. A map comes back with its entries in the order of its keys. -/
theorem run_sortedOutput (S : ComparisonSort) (M : ComparisonMerge) {types : List SqlType} {flags : List CompareFlags}
    (hbind : bind types flags = .ok codec) {hasPayload : Bool} (hlayout : createLayout codec hasPayload = .ok layout)
    (hknown : ∀ column ∈ codec.columns, column.type ≠ .unknown) (options : RadixSortRunOptions codec)
    (uninitialized : ℕ → ℕ) (batches : List (KeyBatch codec.columns))
    (hrows : ∀ batch ∈ batches, ∀ row ∈ batch.rows, OrdinaryRow codec.columns row.1 ∧ FullWidthRow layout.radixWidth
      codec.columns (flagsOf (replicate codec.columns.length false) batches) 0 row.1) :
    ∃ run sorted, ∃ rows : List (KeyRow codec.columns × ℕ),
      (RadixSortRun.create codec layout options).appendAll S batches = .ok run ∧
      run.finalize S M uninitialized = some sorted ∧ rows.Perm (batches.flatMap KeyBatch.rows) ∧
      rows.Pairwise (fun earlier later => (sqlOrderRow S codec.columns earlier.1 later.1).isLE) ∧
      ∀ sizes, sorted.getOutputs 0 sizes = .ok ((rows.take sizes.sum).map fun row =>
        (sortedRow S codec.columns row.1, if layout.kind.hasPayload then row.2 else 0)) := by
  have hf := (createLayout_fits hlayout).1
  obtain ⟨run, hrun, hi⟩ := runInvariant_built hbind hlayout (fun batch hb row hr => (hrows batch hb row hr).2) S options
  have hh := (holds_create options).appendAll hf hrun
  obtain ⟨sorted, rows, hfin, hst, hs, hp, hpair⟩ := hh.finalize hbind hlayout M uninitialized hi.building
    (skipsSound_skippable (bind_prefixOffsets hbind) hf hi) fun row hr => by
      obtain ⟨batch, hb, hr⟩ := mem_flatMap.mp hr
      exact (hrows batch hb row hr).1
  exact ⟨run, sorted, rows, hrun, hfin, hp, hpair, hs.getOutputs hbind hlayout hst hknown⟩

theorem run_sortedOutput_rowThenInteger : ∃ run sorted, ∃ rows : List (KeyRow rowThenInteger.columns × ℕ),
    (RadixSortRun.create rowThenInteger rowThenIntegerLayout {}).appendAll .insertion
      [rowThenIntegerBatch (some 7#32)] = .ok run ∧
    run.finalize .insertion .standard (fun _ => 0) = some sorted ∧ rows.Perm (rowThenIntegerBatch (some 7#32)).rows ∧
    ∀ sizes, sorted.getOutputs 0 sizes = .ok ((rows.take sizes.sum).map fun row =>
      (sortedRow .insertion rowThenInteger.columns row.1, 0)) := by
  have hbind : bind [.row [.scalar .integer], .scalar .integer] [{}, {}] = .ok rowThenInteger := rfl
  have hlayout : createLayout rowThenInteger false = .ok rowThenIntegerLayout := rfl
  obtain ⟨run, sorted, rows, hrun, hfin, hp, -, hout⟩ := run_sortedOutput .insertion .standard hbind hlayout
    (by simp [rowThenInteger]) {} (fun _ => 0) [rowThenIntegerBatch (some 7#32)] fun batch hb row hr => by
      refine ⟨?_, fullWidthRow_rowThenInteger batch hb row hr⟩
      obtain rfl := mem_singleton.mp hb
      obtain ⟨integer, he⟩ := mem_rowThenIntegerRows hr
      rw [he]
      exact ⟨fun _ _ => ⟨fun _ _ => trivial, trivial⟩, fun _ _ => trivial, trivial⟩
  exact ⟨run, sorted, rows, hrun, hfin, by simpa using hp, hout⟩

end Bolt.RadixSort
