import Bolt.Lib.Segments
import Bolt.Lib.Traverse
import Bolt.RadixSort.KeySize

/-!
# Building a run

Batches of key rows are appended as records, and `finalize` tells the sorter which encoded
bytes to leave out of its radix passes. The offset of a validity byte is summed from the
maximum sizes of the columns before it, which a null child of a fixed-size row does not fill.
-/

namespace Bolt.RadixSort

open Data Lib Lib.Sorting Lib.Traverse List

variable {S : ComparisonSort}

/-- Every null of a row is in a column whose batch flags it. -/
def NullsFlagged : (columns : List RadixSortKeyColumn) → List Bool → KeyRow columns → Prop
  | [], _, _ => True
  | _ :: _, [], _ => False
  | column :: columns, flag :: flags, (value, values) =>
    (flag = false → column.type = .unknown ∨ value.isSome) ∧ NullsFlagged columns flags values

/-- The key columns of an input batch. `mayHaveNulls` are the vectors' own flags and
`flat` the encoding of the first column; the second component of a row is the address
of its payload. -/
structure KeyBatch (columns : List RadixSortKeyColumn) where
  rows : List (KeyRow columns × ℕ)
  mayHaveNulls : List Bool
  flat : Bool
  mayHaveNulls_length : mayHaveNulls.length = columns.length
  nulls_flagged : ∀ row ∈ rows, NullsFlagged columns mayHaveNulls row.1

def keysPerBlock (kind : RadixSortKeyLayoutKind) : ℕ := max 1 (64 * 1024 / kind.width)

theorem keysPerBlock_pos (kind : RadixSortKeyLayoutKind) : 0 < keysPerBlock kind :=
  lt_of_lt_of_le Nat.one_pos (Nat.le_max_left _ _)

/-- `RadixSortRunState`, without the state that only `finalize` itself sees. -/
inductive RadixSortRunState where
  | building
  | sortedInMemory
  | consumed
  deriving DecidableEq

/-- "RadixSortRun accepts input only while building", or a failed append. -/
inductive RunError where
  | notBuilding
  | append (error : AppendError)

/-- The flags of the runs before, one for each key column if there are any. -/
structure RadixSortRunOptions (codec : RadixSortKeyCodec) where
  initialKeyMayHaveNulls : List Bool := []
  initialVariableKeysFitRadixPrefix : Bool := true
  flags_length : initialKeyMayHaveNulls = [] ∨ initialKeyMayHaveNulls.length = codec.columns.length := by decide

def RadixSortRunOptions.keyMayHaveNulls {codec : RadixSortKeyCodec} (options : RadixSortRunOptions codec) : List Bool :=
  if options.initialKeyMayHaveNulls.isEmpty then replicate codec.columns.length false
  else options.initialKeyMayHaveNulls

theorem RadixSortRunOptions.length_keyMayHaveNulls {codec : RadixSortKeyCodec} (options : RadixSortRunOptions codec) :
    options.keyMayHaveNulls.length = codec.columns.length := by
  rw [keyMayHaveNulls]
  split_ifs with hempty
  · exact length_replicate
  · exact options.flags_length.resolve_left (by simpa using hempty)

structure RadixSortRun (codec : RadixSortKeyCodec) (layout : RadixSortKeyLayout) where
  storage : Segments (KeyRecord layout.kind) (keysPerBlock layout.kind) := .empty
  /-- With the flags of the runs before this one; the decoders read it. -/
  keyMayHaveNulls : List Bool
  currentRunKeyMayHaveNulls : List Bool
  currentRunMaximumEncodedKeySize : ℕ := 0
  variableKeysFitRadixPrefix : Bool
  state : RadixSortRunState := .building

variable {codec : RadixSortKeyCodec} {layout : RadixSortKeyLayout}

namespace RadixSortRun

def create (codec : RadixSortKeyCodec) (layout : RadixSortKeyLayout) (options : RadixSortRunOptions codec) :
    RadixSortRun codec layout where
  keyMayHaveNulls := options.keyMayHaveNulls
  currentRunKeyMayHaveNulls := replicate options.keyMayHaveNulls.length false
  variableKeysFitRadixPrefix := layout.kind.isVariable && options.initialVariableKeysFitRadixPrefix

def batchMaximumEncodedKeySize (layout : RadixSortKeyLayout) (records : List (KeyRecord layout.kind)) : ℕ :=
  layout.heapKeyOffset + records.foldl (fun size record => max size record.heap.length) 0

def append (S : ComparisonSort) (run : RadixSortRun codec layout) (batch : KeyBatch codec.columns) :
    Except RunError (RadixSortRun codec layout) :=
  if run.state ≠ .building then .error .notBuilding
  else if batch.rows = [] then .ok run
  else
    match batch.rows.mapM fun row => appendRow S codec layout batch.flat row.1 row.2 with
    | .error error => .error (.append error)
    | .ok records =>
      .ok { run with
        storage := run.storage.append (keysPerBlock_pos layout.kind) records
        keyMayHaveNulls := zipWith (· || ·) run.keyMayHaveNulls batch.mayHaveNulls
        currentRunKeyMayHaveNulls := zipWith (· || ·) run.currentRunKeyMayHaveNulls batch.mayHaveNulls
        currentRunMaximumEncodedKeySize :=
          if layout.kind.isVariable then
            max run.currentRunMaximumEncodedKeySize (batchMaximumEncodedKeySize layout records)
          else run.currentRunMaximumEncodedKeySize
        variableKeysFitRadixPrefix :=
          if layout.kind.isVariable then
            run.variableKeysFitRadixPrefix &&
              batchMaximumEncodedKeySize layout records ≤ layout.kind.inlineCapacity
          else run.variableKeysFitRadixPrefix }

def appendAll (S : ComparisonSort) (run : RadixSortRun codec layout) :
    List (KeyBatch codec.columns) → Except RunError (RadixSortRun codec layout)
  | [] => .ok run
  | batch :: batches =>
    match run.append S batch with
    | .error error => .error error
    | .ok run => run.appendAll S batches

end RadixSortRun

/-- The loop of `makeLeadingSkippableValidityOffsets`. `bind` has checked that the
offsets do not overflow. -/
def makeLeadingSkippableValidityOffsets (radixWidth : ℕ) : List RadixSortKeyColumn → List Bool → ℕ → List ℕ
  | column :: columns, mayHaveNulls :: rest, encodedOffset =>
    if mayHaveNulls || encodedOffset ≥ radixWidth then []
    else encodedOffset ::
      match maximumEncodedSize column.type with
      | none => []
      | some size => makeLeadingSkippableValidityOffsets radixWidth columns rest (encodedOffset + size)
  | _, _, _ => []

/-- The offsets `finalize` passes to the sorter. -/
def RadixSortRun.skippableValidityOffsets (run : RadixSortRun codec layout) : List ℕ :=
  makeLeadingSkippableValidityOffsets layout.radixWidth codec.columns run.currentRunKeyMayHaveNulls 0 ++
    if layout.kind.isVariable then
      let first := min run.currentRunMaximumEncodedKeySize layout.radixWidth
      (range (layout.radixWidth - first)).map (first + ·)
    else []

/-- Before an offset that is passed, the columns of a row hold no row with a null child. -/
def FullWidthRow (radixWidth : ℕ) : (columns : List RadixSortKeyColumn) → (mayHaveNulls : List Bool) →
    (encodedOffset : ℕ) → KeyRow columns → Prop
  | column :: columns, false :: rest, encodedOffset, (value, values) =>
    ∀ size, maximumEncodedSize column.type = some size →
      makeLeadingSkippableValidityOffsets radixWidth columns rest (encodedOffset + size) ≠ [] →
        (∀ datum, value = some datum → FullWidth column.type datum) ∧
          FullWidthRow radixWidth columns rest (encodedOffset + size) values
  | _, _, _, _ => True

def validityByte (flags : CompareFlags) : SqlType → UInt8
  | .unknown => nullMarker flags
  | _ => validMarker flags

private theorem encodeVariableColumn_head (S : ComparisonSort) (wide : Bool) {type : SqlType}
    (flags : CompareFlags) {value : Value type} (h : type = .unknown ∨ value.isSome) :
    ∃ body, encodeVariableColumn S wide type flags value = validityByte flags type :: body := by
  cases type with
  | unknown => exact ⟨[], rfl⟩
  | _ =>
    obtain ⟨datum, rfl⟩ : ∃ datum, value = some datum :=
      Option.isSome_iff_exists.mp (h.resolve_left (by simp))
    exact ⟨_, rfl⟩

theorem leadingOffset_byte_eq (S : ComparisonSort) (radixWidth : ℕ) :
    (columns : List RadixSortKeyColumn) → (flags : List Bool) → (start pre : ℕ) → {offset : ℕ} →
    offset ∈ makeLeadingSkippableValidityOffsets radixWidth columns flags start →
    start ≤ offset ∧ offset < radixWidth ∧ ∃ byte : UInt8, ∀ row : KeyRow columns,
      NullsFlagged columns flags row → FullWidthRow radixWidth columns flags start row →
      (encodeColumns S columns pre row).getD (offset - start) 0 = byte
  | [], _, _, _, _, h => nomatch h
  | _ :: _, [], _, _, _, h => nomatch h
  | column :: columns, flag :: flags, start, pre, offset, h => by
    rw [makeLeadingSkippableValidityOffsets] at h
    split at h
    · cases h
    · rename_i hcondition
      obtain ⟨rfl, hst⟩ : flag = false ∧ start < radixWidth := by simpa using hcondition
      rcases mem_cons.mp h with rfl | ht
      · refine ⟨le_refl _, hst, validityByte column.flags column.type, ?_⟩
        rintro ⟨value, values⟩ hn -
        obtain ⟨body, hb⟩ := encodeVariableColumn_head S (0 < pre) column.flags (hn.1 rfl)
        rw [encodeColumns, hb, Nat.sub_self]
        rfl
      · split at ht
        · cases ht
        · rename_i size hs
          obtain ⟨hle, hlt, byte, hby⟩ :=
            leadingOffset_byte_eq S radixWidth columns flags (start + size) (pre - 1) ht
          refine ⟨by omega, hlt, byte, ?_⟩
          rintro ⟨value, values⟩ hn hfu
          -- an offset behind this column is passed, so it takes its full width
          obtain ⟨hwide, hfu⟩ := hfu size hs (ne_nil_of_mem ht)
          have hw : FullWidthValue column.type value := by
            rcases hn.1 rfl with hu | hso
            · exact .inl hu
            · obtain ⟨datum, hdatum⟩ := Option.isSome_iff_exists.mp hso
              exact .inr ⟨datum, hdatum, hwide datum hdatum⟩
          have hl := (length_encodeVariableColumn S (0 < pre) column.flags value hs).2 hw
          rw [encodeColumns, getD_append_right _ _ _ _ (by omega), hl, Nat.sub_sub]
          exact hby values hn.2 hfu

/-- What holds of a run under construction whose rows all satisfy `P`. -/
structure RunInvariant (S : ComparisonSort) (P : KeyRow codec.columns → Prop) (run : RadixSortRun codec layout) :
    Prop where
  building : run.state = .building
  flags_length : run.currentRunKeyMayHaveNulls.length = codec.columns.length
  records : ∀ record ∈ run.storage.toList, ∃ row flat payload,
    appendRow S codec layout flat row payload = .ok record ∧ P row ∧
      NullsFlagged codec.columns run.currentRunKeyMayHaveNulls row ∧
      (layout.kind.isVariable = true →
        layout.heapKeyOffset + record.heap.length ≤ run.currentRunMaximumEncodedKeySize)

theorem nullsFlagged_or : (columns : List RadixSortKeyColumn) → (left right : List Bool) →
    left.length = columns.length → right.length = columns.length → (row : KeyRow columns) →
    NullsFlagged columns left row ∨ NullsFlagged columns right row →
    NullsFlagged columns (zipWith (· || ·) left right) row
  | [], _, _, _, _, _, _ => trivial
  | _ :: _, [], _, hl, _, _, _ => nomatch hl
  | _ :: _, _ :: _, [], _, hr, _, _ => nomatch hr
  | column :: columns, l :: left, r :: right, hl, hr, (value, values), h => by
    have ht := nullsFlagged_or columns left right (Nat.succ.inj hl) (Nat.succ.inj hr) values
    rw [zipWith_cons_cons]
    rcases h with h | h
    · refine ⟨fun hf => h.1 ?_, ht (.inl h.2)⟩
      exact (Bool.or_eq_false_iff.mp hf).1
    · refine ⟨fun hf => h.1 ?_, ht (.inr h.2)⟩
      exact (Bool.or_eq_false_iff.mp hf).2

theorem heap_le_foldl {kind : RadixSortKeyLayoutKind} (records : List (KeyRecord kind)) (size : ℕ) :
    size ≤ records.foldl (fun size record => max size record.heap.length) size ∧
      ∀ record ∈ records, record.heap.length ≤ records.foldl (fun size record => max size record.heap.length) size := by
  induction records generalizing size with
  | nil => simp
  | cons first records ih =>
    obtain ⟨hs, hrecords⟩ := ih (max size first.heap.length)
    refine ⟨le_trans (le_max_left _ _) hs, ?_⟩
    intro record hr
    rcases mem_cons.mp hr with rfl | hr
    · exact le_trans (le_max_right _ _) hs
    · exact hrecords record hr

theorem runInvariant_create (S : ComparisonSort) (P : KeyRow codec.columns → Prop) (options : RadixSortRunOptions codec) :
    RunInvariant S P (RadixSortRun.create codec layout options) where
  building := rfl
  flags_length := length_replicate.trans options.length_keyMayHaveNulls
  records := by simp [RadixSortRun.create, Segments.toList, Segments.empty]

variable {P : KeyRow codec.columns → Prop} {run : RadixSortRun codec layout}

section

variable (hap : ∀ flat row payload, ∃ record, appendRow S codec layout flat row payload = .ok record)
include hap

theorem runInvariant_append (hr : RunInvariant S P run) (batch : KeyBatch codec.columns)
    (hrow : ∀ row ∈ batch.rows, P row.1) :
    ∃ run', run.append S batch = .ok run' ∧ RunInvariant S P run' := by
  obtain ⟨records, hrecords, -⟩ := exists_mapM_ok batch.rows fun row _ =>
    (hap batch.flat row.1 row.2).imp fun _ h => ⟨h, trivial⟩
  unfold RadixSortRun.append
  rw [if_neg (not_not.mpr hr.building)]
  split
  · exact ⟨run, rfl, hr⟩
  · rw [hrecords]
    refine ⟨_, rfl, hr.building, ?_, ?_⟩
    · simp [hr.flags_length, batch.mayHaveNulls_length]
    · intro record hre
      simp only [Segments.append_toList, mem_append] at hre
      rcases hre with hold | hn
      · obtain ⟨row, flat, payload, hro, hP, hnu, hs⟩ := hr.records record hold
        refine ⟨row, flat, payload, hro, hP, ?_, ?_⟩
        · exact nullsFlagged_or _ _ _ hr.flags_length batch.mayHaveNulls_length row (.inl hnu)
        · intro hv
          simp only [hv, if_true]
          exact le_trans (hs hv) (le_max_left _ _)
      · obtain ⟨row, hm, hro⟩ := exists_of_mem_right (mapM_eq_ok_iff.mp hrecords) hn
        refine ⟨row.1, batch.flat, row.2, hro, hrow row hm, ?_, ?_⟩
        · exact nullsFlagged_or _ _ _ hr.flags_length batch.mayHaveNulls_length row.1
            (.inr (batch.nulls_flagged row hm))
        · intro hv
          simp only [hv, if_true]
          refine le_trans ?_ (le_max_right _ _)
          exact Nat.add_le_add_left ((heap_le_foldl records 0).2 record hn) _

theorem runInvariant_appendAll (batches : List (KeyBatch codec.columns))
    (hr : ∀ batch ∈ batches, ∀ row ∈ batch.rows, P row.1) (hru : RunInvariant S P run) :
    ∃ run', run.appendAll S batches = .ok run' ∧ RunInvariant S P run' := by
  induction batches generalizing run with
  | nil => exact ⟨run, rfl, hru⟩
  | cons batch batches ih =>
    obtain ⟨run', happended, hrun'⟩ :=
      runInvariant_append hap hru batch (hr batch mem_cons_self)
    rw [RadixSortRun.appendAll, happended]
    exact ih (fun b hb => hr b (mem_cons_of_mem batch hb)) hrun'

end

private theorem radixWidth_le (hf : LayoutFits codec layout) : layout.radixWidth ≤ layout.kind.inlineCapacity := by
  cases hki : layout.kind.isVariable with
  | true => exact le_of_eq (hf.variable_width hki)
  | false =>
    obtain ⟨size, -, hs, hw⟩ := hf.fixed_size hki
    omega

private theorem trailingOffset_byte (ho : PrefixOffsets 0 codec.columns) (hf : LayoutFits codec layout)
    (hru : RunInvariant S P run) (hv : layout.kind.isVariable = true) {offset : ℕ}
    (hm : run.currentRunMaximumEncodedKeySize ≤ offset) (hof : offset < layout.kind.inlineCapacity)
    {record : KeyRecord layout.kind} (hre : record ∈ run.storage.toList) : record.encodedByte offset = 0 := by
  obtain ⟨row, flat, payload, hr, -, -, hs⟩ := hru.records record hre
  rw [appendRow_encodedByte ho hf hr hof]
  unfold appendRow at hr
  rw [if_pos hv] at hr
  obtain rfl := Except.ok.inj hr
  have hl := appendVariable_size (S := S) ho hf hv row payload
  have hle : (encodedKey S codec layout row).length ≤ offset := by
    rw [← hl]
    exact le_trans (hs hv) hm
  rw [getD_eq_getElem?_getD, getElem?_eq_none hle, Option.getD_none]

theorem skippable_byte_eq (ho : PrefixOffsets 0 codec.columns) (hf : LayoutFits codec layout)
    (hru : RunInvariant S (FullWidthRow layout.radixWidth codec.columns run.currentRunKeyMayHaveNulls 0) run) {offset : ℕ}
    (hof : offset ∈ run.skippableValidityOffsets) :
    ∃ byte, ∀ record ∈ run.storage.toList, record.encodedByte offset = byte := by
  have hw := radixWidth_le hf
  rcases mem_append.mp hof with hl | htrailing
  · obtain ⟨-, hlt, byte, hb⟩ := leadingOffset_byte_eq S layout.radixWidth codec.columns
      run.currentRunKeyMayHaveNulls 0 (prefixColumnCount codec layout) hl
    refine ⟨byte, fun record hr => ?_⟩
    obtain ⟨row, flat, payload, hro, hfu, hn, -⟩ := hru.records record hr
    rw [appendRow_encodedByte ho hf hro (by omega)]
    exact hb row hn hfu
  · split at htrailing
    · rename_i hv
      obtain ⟨k, hk, rfl⟩ := mem_map.mp htrailing
      rw [mem_range] at hk
      refine ⟨0, fun record hr => ?_⟩
      exact trailingOffset_byte ho hf hru hv (by omega) (by omega) hr
    · cases htrailing

/-- The columns that some batch flags. -/
def flagsOf {columns : List RadixSortKeyColumn} (flags : List Bool) (batches : List (KeyBatch columns)) : List Bool :=
  batches.foldl (fun flags batch => if batch.rows = [] then flags else zipWith (· || ·) flags batch.mayHaveNulls) flags

theorem exists_append_of_appendAll {run' : RadixSortRun codec layout} {batch : KeyBatch codec.columns}
    {batches : List (KeyBatch codec.columns)} (h : run.appendAll S (batch :: batches) = .ok run') :
    ∃ next, run.append S batch = .ok next ∧ next.appendAll S batches = .ok run' := by
  rw [RadixSortRun.appendAll] at h
  cases hone : run.append S batch with
  | error e =>
    rw [hone] at h
    cases h
  | ok next =>
    rw [hone] at h
    exact ⟨next, rfl, h⟩

theorem currentRunKeyMayHaveNulls_appendAll {run' : RadixSortRun codec layout} {batches : List (KeyBatch codec.columns)}
    (happended : run.appendAll S batches = .ok run') :
    run'.currentRunKeyMayHaveNulls = flagsOf run.currentRunKeyMayHaveNulls batches := by
  induction batches generalizing run with
  | nil =>
    obtain rfl := Except.ok.inj happended
    rfl
  | cons batch batches ih =>
    obtain ⟨next, hone, hrest⟩ := exists_append_of_appendAll happended
    rw [ih hrest, flagsOf, flagsOf, foldl_cons]
    congr 1
    unfold RadixSortRun.append at hone
    split at hone
    · cases hone
    split at hone
    · rename_i hempty
      rw [if_pos hempty, Except.ok.inj hone]
    · rename_i hne
      split at hone
      · cases hone
      · rw [if_neg hne, ← Except.ok.inj hone]

section Built

variable {types : List SqlType} {flags : List CompareFlags} (hbind : bind types flags = .ok codec) {hasPayload : Bool}
  (hlayout : createLayout codec hasPayload = .ok layout) {batches : List (KeyBatch codec.columns)}
  (hrows : ∀ batch ∈ batches, ∀ row ∈ batch.rows, FullWidthRow layout.radixWidth codec.columns
    (flagsOf (replicate codec.columns.length false) batches) 0 row.1)
include hbind hlayout hrows

theorem runInvariant_built (S : ComparisonSort) (options : RadixSortRunOptions codec) :
    ∃ run, (RadixSortRun.create codec layout options).appendAll S batches = .ok run ∧
      RunInvariant S (FullWidthRow layout.radixWidth codec.columns run.currentRunKeyMayHaveNulls 0) run := by
  obtain ⟨run, happended, hrun⟩ := runInvariant_appendAll (appendRow_isOk S hbind hlayout) batches hrows
    (runInvariant_create S _ options)
  have hflags := currentRunKeyMayHaveNulls_appendAll happended
  rw [RadixSortRun.create, options.length_keyMayHaveNulls] at hflags
  exact ⟨run, happended, hflags ▸ hrun⟩

end Built

/-- For every sequence of batches whose fixed-size rows hold no null child before an offset that
`finalize` passes, the run is built, every key holds the same encoded byte at every offset that `finalize` passes to
the sorter, and leaving those bytes out of a comparison of encoded bytes does not
change its result. -/
theorem skippableValidityOffsets_sound (S : ComparisonSort) {types : List SqlType} {flags : List CompareFlags}
    (hbind : bind types flags = .ok codec) {hasPayload : Bool}
    (hlayout : createLayout codec hasPayload = .ok layout) (options : RadixSortRunOptions codec)
    (batches : List (KeyBatch codec.columns))
    (hrows : ∀ batch ∈ batches, ∀ row ∈ batch.rows, FullWidthRow layout.radixWidth codec.columns
      (flagsOf (replicate codec.columns.length false) batches) 0 row.1) :
    ∃ run, (RadixSortRun.create codec layout options).appendAll S batches = .ok run ∧
      ∀ left ∈ run.storage.toList, ∀ right ∈ run.storage.toList,
        (∀ offset ∈ run.skippableValidityOffsets, left.encodedByte offset = right.encodedByte offset) ∧
        ∀ positions : List ℕ, compare ((positions.filter (· ∉ run.skippableValidityOffsets)).map left.encodedByte)
              ((positions.filter (· ∉ run.skippableValidityOffsets)).map right.encodedByte) =
            compare (positions.map left.encodedByte) (positions.map right.encodedByte) := by
  have hoffsets := bind_prefixOffsets hbind
  have hfits := (createLayout_fits hlayout).1
  obtain ⟨run, happended, hrun⟩ := runInvariant_built hbind hlayout hrows S options
  refine ⟨run, happended, fun left hleft right hright => ?_⟩
  have hsame : ∀ offset ∈ run.skippableValidityOffsets, left.encodedByte offset = right.encodedByte offset := by
    intro offset hoffset
    obtain ⟨byte, hbyte⟩ := skippable_byte_eq hoffsets hfits hrun hoffset
    rw [hbyte left hleft, hbyte right hright]
  refine ⟨hsame, fun positions => ?_⟩
  apply OrderCode.compare_map_filter positions
  intro offset _ hskipped
  exact hsame offset (by simpa using hskipped)

/-- Keys of a one-child row and an integer, at most eleven bytes. -/
def rowThenInteger : RadixSortKeyCodec where
  columns := [⟨.row [.scalar .integer], {}, none, validFlags_default, by decide⟩,
    ⟨.scalar .integer, {}, none, validFlags_default, by decide⟩]
  maximumEncodedSize := some 11

/-- Sixteen bytes without a payload; the radix passes have no comparison to fall back on. -/
def rowThenIntegerLayout : RadixSortKeyLayout := ⟨.keyOnlyFixed16, 8, 0⟩

def rowThenIntegerRows (child : Option (BitVec 32)) : List (KeyRow rowThenInteger.columns × ℕ) :=
  [((some (child, ()), some 1#32, ()), 0), ((some (child, ()), some 2#32, ()), 0)]

theorem mem_rowThenIntegerRows {child : Option (BitVec 32)} {row : KeyRow rowThenInteger.columns × ℕ}
    (h : row ∈ rowThenIntegerRows child) : ∃ integer, row.1 = (some (child, ()), some integer, ()) := by
  simp only [rowThenIntegerRows, mem_cons, not_mem_nil, or_false] at h
  rcases h with rfl | rfl <;> exact ⟨_, rfl⟩

def rowThenIntegerBatch (child : Option (BitVec 32)) : KeyBatch rowThenInteger.columns where
  rows := rowThenIntegerRows child
  mayHaveNulls := [false, false]
  flat := false
  mayHaveNulls_length := rfl
  nulls_flagged := by
    intro row hrow
    obtain ⟨integer, hsome⟩ := mem_rowThenIntegerRows hrow
    rw [hsome]
    exact ⟨fun _ => Or.inr rfl, fun _ => Or.inr rfl, trivial⟩

theorem fullWidthRow_rowThenInteger : ∀ batch ∈ [rowThenIntegerBatch (some 7#32)], ∀ row ∈ batch.rows,
    FullWidthRow rowThenIntegerLayout.radixWidth rowThenInteger.columns
      (flagsOf (replicate 2 false) [rowThenIntegerBatch (some 7#32)]) 0 row.1 := by
  intro batch hbatch row hrow
  obtain rfl := mem_singleton.mp hbatch
  obtain ⟨integer, hrow⟩ := mem_rowThenIntegerRows hrow
  rw [hrow]
  refine fun size _ _ => ⟨fun datum hdatum => ?_, fun size _ hnone => absurd rfl hnone⟩
  obtain rfl := Option.some.inj hdatum
  exact ⟨.inr ⟨7#32, rfl, trivial⟩, trivial⟩

/-- With the children present, byte six is the validity byte of the integer. -/
theorem skippableValidityOffsets_sound_rowThenInteger :
    ∃ run, (RadixSortRun.create rowThenInteger rowThenIntegerLayout {}).appendAll .insertion
        [rowThenIntegerBatch (some 7#32)] = .ok run ∧
      ∀ left ∈ run.storage.toList, ∀ right ∈ run.storage.toList,
        ∀ offset ∈ run.skippableValidityOffsets, left.encodedByte offset = right.encodedByte offset := by
  have hbind : bind [.row [.scalar .integer], .scalar .integer] [{}, {}] = .ok rowThenInteger := rfl
  have hlayout : createLayout rowThenInteger false = .ok rowThenIntegerLayout := rfl
  obtain ⟨run, hrun, hsound⟩ := skippableValidityOffsets_sound .insertion hbind hlayout {}
    [rowThenIntegerBatch (some 7#32)] fullWidthRow_rowThenInteger
  exact ⟨run, hrun, fun left hleft right hright => (hsound left hleft right hright).1⟩

/-- With null children byte six is the last byte of the integer. It is skipped, it
differs, and it is all that orders the two keys. -/
theorem skippableValidityOffsets_nullChild :
    bind [.row [.scalar .integer], .scalar .integer] [{}, {}] = .ok rowThenInteger ∧
    createLayout rowThenInteger false = .ok rowThenIntegerLayout ∧
    ∃ run, (RadixSortRun.create rowThenInteger rowThenIntegerLayout {}).appendAll .insertion
        [rowThenIntegerBatch none] = .ok run ∧
      6 ∈ run.skippableValidityOffsets ∧
      ∃ left ∈ run.storage.toList, ∃ right ∈ run.storage.toList, left.encodedByte 6 ≠ right.encodedByte 6 ∧
        compare (((range 16).filter (· ∉ run.skippableValidityOffsets)).map left.encodedByte)
          (((range 16).filter (· ∉ run.skippableValidityOffsets)).map right.encodedByte) = .eq ∧
        compare ((range 16).map left.encodedByte) ((range 16).map right.encodedByte) = .lt := by
  refine ⟨rfl, rfl, _, rfl, by decide, ?_⟩
  simp only [RadixSortRun.create, Segments.append_toList]
  refine ⟨_, mem_append_right _ mem_cons_self, _,
    mem_append_right _ (mem_cons_of_mem _ mem_cons_self), ?_⟩
  decide +kernel

end Bolt.RadixSort
