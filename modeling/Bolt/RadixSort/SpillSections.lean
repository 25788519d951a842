import Bolt.Lib.Bytes
import Mathlib.Algebra.GroupWithZero.Nat

/-!
# Restoring the payload pointers of a spilled block

A block read back from a spill file has the fixed parts of its payload rows and a heap with
their strings and complex values. Whatever the bytes are, the restore accepts the block just
when the sizes in its slots add up to the heap, and then the values have been given
consecutive ranges that cover the heap.
-/

namespace Bolt.RadixSort

open List Lib.Bytes

inductive PayloadVariableKind
  | string
  | complex

/-- `RadixSortSpillPayloadVariableOp`. -/
structure VariableOp where
  offset : ℕ
  nullByte : ℕ
  nullMask : UInt8
  kind : PayloadVariableKind

/-- The bytes from the start of a payload row on. -/
abbrev PayloadRow := ℕ → UInt8

namespace PayloadRow

variable (row : PayloadRow)

def bytes (offset size : ℕ) : List UInt8 := (range size).map fun i => row (offset + i)

def load (offset size : ℕ) : UInt64 := .ofNat (leValue (row.bytes offset size))

def store (offset : ℕ) (word : UInt64) : PayloadRow := fun p =>
  if offset ≤ p ∧ p < offset + 8 then (leBytes 8 word.toNat).getD (p - offset) 0 else row p

end PayloadRow

namespace VariableOp

variable (op : VariableOp) (row : PayloadRow)

def isNull : Bool := row op.nullByte &&& op.nullMask == 0

/-- A `StringView` starts with 32 bits of size, a `PayloadVarlenRef` with 64. -/
def size : UInt64 := row.load op.offset (match op.kind with | .string => 4 | .complex => 8)

def data : UInt64 := row.load (op.offset + 8) 8

/-- Strings of up to 12 bytes are inline. -/
def inHeap : Bool :=
  !op.isNull row && match op.kind with | .string => 12 < op.size row | .complex => op.size row != 0

/-- `storeStringPointer`, or the store of a whole `PayloadVarlenRef`. -/
def storePointer (pointer : UInt64) : PayloadRow :=
  match op.kind with
  | .string => row.store (op.offset + 8) pointer
  | .complex => (row.store op.offset (op.size row)).store (op.offset + 8) pointer

/-- The bytes of the heap that the value of the slot takes. -/
def heapSize? : Option ℕ := if op.inHeap row then some (op.size row).toNat else none

/-- The range of the heap that the slot refers to. -/
def range? : Option (ℕ × ℕ) :=
  if op.inHeap row then some ((op.data row).toNat, (op.size row).toNat) else none

end VariableOp

/-- The slots lie one behind the other from `start` on, and the null bytes in front of all of them. -/
def Laid (nullBytes : ℕ) : ℕ → List VariableOp → Prop
  | _, [] => True
  | start, op :: ops => op.nullByte < nullBytes ∧ start ≤ op.offset ∧ Laid nullBytes (op.offset + 16) ops

structure RadixSortSpillSectionMeta where
  hasPayload : Bool
  nullBytes : ℕ
  payloadVariableOps : List VariableOp
  laid : Laid nullBytes nullBytes payloadVariableOps
  no_payload : hasPayload = false → payloadVariableOps = []

/-- The column loop of `PayloadRowLayout::create`: the widths of the fixed columns, the kinds of the others. -/
def variableColumns : ℕ → ℕ → List (ℕ ⊕ PayloadVariableKind) → List VariableOp
  | _, _, [] => []
  | column, rowWidth, .inl width :: columns => variableColumns (column + 1) (rowWidth + width) columns
  | column, rowWidth, .inr kind :: columns =>
    ⟨rowWidth, column / 8, 1 <<< UInt8.ofNat (column % 8), kind⟩ :: variableColumns (column + 1) (rowWidth + 16) columns

theorem laid_variableColumns {nullBytes column rowWidth start : ℕ} {columns : List (ℕ ⊕ PayloadVariableKind)}
    (hs : start ≤ rowWidth) (hc : column + columns.length ≤ 8 * nullBytes) :
    Laid nullBytes start (variableColumns column rowWidth columns) := by
  induction columns generalizing column rowWidth start with
  | nil => trivial
  | cons c columns ih =>
    rw [length_cons] at hc
    cases c with
    | inl width => exact ih (by omega) (by omega)
    | inr kind => exact ⟨by dsimp only; omega, hs, ih le_rfl (by omega)⟩

/-- `RadixSortSpillSectionMeta::create` on the columns of the payload, if there is one. -/
def RadixSortSpillSectionMeta.create : Option (List (ℕ ⊕ PayloadVariableKind)) → RadixSortSpillSectionMeta
  | none => ⟨false, 0, [], trivial, fun _ => rfl⟩
  | some columns =>
    let nullBytes := (columns.length + 7) / 8
    ⟨true, nullBytes, variableColumns 0 nullBytes columns, laid_variableColumns le_rfl (by omega), nofun⟩

/-- The slots of one row; `none` is a value that does not fit. -/
def restorePayloadPointersAndGetHeapSize (payloadHeap available : UInt64) :
    List VariableOp → UInt64 → PayloadRow → PayloadRow × Option UInt64
  | [], heapSize, row => (row, some heapSize)
  | op :: ops, heapSize, row =>
    if op.inHeap row then
      if available - heapSize < op.size row then (row, none)
      else restorePayloadPointersAndGetHeapSize payloadHeap available ops (heapSize + op.size row)
        (op.storePointer row (payloadHeap + heapSize))
    else restorePayloadPointersAndGetHeapSize payloadHeap available ops heapSize row

/-- The row loop, with the heap pointer it arrives at and whether it gets through. -/
def restoreRows (ops : List VariableOp) (payloadHeapEnd : UInt64) :
    UInt64 → List PayloadRow → List PayloadRow × UInt64 × Bool
  | payloadHeap, [] => ([], payloadHeap, true)
  | payloadHeap, row :: rows =>
    match restorePayloadPointersAndGetHeapSize payloadHeap (payloadHeapEnd - payloadHeap) ops 0 row with
    | (row, none) => (row :: rows, payloadHeap, false)
    | (row, some heapSize) =>
      let (rows, result) := restoreRows ops payloadHeapEnd (payloadHeap + heapSize) rows
      (row :: rows, result)

def restorePayloadPointersInSectionRows (sectionMeta : RadixSortSpillSectionMeta) (rows : List PayloadRow)
    (payloadHeap payloadHeapEnd : UInt64) : List PayloadRow × UInt64 × Bool :=
  if payloadHeapEnd < payloadHeap then (rows, payloadHeap, false)
  else if !sectionMeta.hasPayload || sectionMeta.payloadVariableOps.isEmpty then
    (rows, payloadHeap, payloadHeap == payloadHeapEnd)
  else
    let (rows, heap, restored) := restoreRows sectionMeta.payloadVariableOps payloadHeapEnd payloadHeap rows
    (rows, heap, restored && heap == payloadHeapEnd)

/-! ## Ranges that cover the heap -/

/-- Each range starts where the one before it ends, the first at `first`; the last ends at `last`. -/
def Tiles (last : ℕ) : ℕ → List (ℕ × ℕ) → Prop
  | first, [] => first = last
  | first, (data, size) :: ranges => data = first ∧ Tiles last (first + size) ranges

section Tiles

variable {first last : ℕ} {ranges : List (ℕ × ℕ)}

theorem Tiles.le (h : Tiles last first ranges) : first ≤ last := by
  induction ranges generalizing first with
  | nil => exact h.le
  | cons r ranges ih => exact (Nat.le_add_right first r.2).trans (ih h.2)

theorem tiles_append (more : List (ℕ × ℕ)) :
    Tiles last first (ranges ++ more) ↔ ∃ middle, Tiles middle first ranges ∧ Tiles last middle more := by
  induction ranges generalizing first with
  | nil => simp [Tiles]
  | cons r ranges ih => simp [Tiles, ih, and_assoc]

end Tiles

/-! ## One row -/

/-- The rows differ in the pointers of the slots only. -/
def PointersOnly (ops : List VariableOp) (row row' : PayloadRow) : Prop :=
  ∀ p, (∀ op ∈ ops, p < op.offset + 8 ∨ op.offset + 16 ≤ p) → row' p = row p

section Row

open VariableOp

variable {nullBytes start : ℕ} {ops : List VariableOp} {op : VariableOp} {row row' : PayloadRow}
  {payloadHeap available heapSize total pointer : UInt64}

/-- The size that is stored with the pointer is the one that is there. -/
theorem storePointer_eq : op.storePointer row pointer = row.store (op.offset + 8) pointer := by
  unfold storePointer
  split
  · rfl
  · next hki =>
    have hlen : (row.bytes op.offset 8).length = 8 := by simp [PayloadRow.bytes]
    have hv := leValue_lt (row.bytes op.offset 8)
    have hb := leBytes_leValue (row.bytes op.offset 8)
    rw [hlen] at hv hb
    have hsi : (op.size row).toNat = leValue (row.bytes op.offset 8) := by
      simp only [size, hki, PayloadRow.load]
      exact UInt64.toNat_ofNat_of_lt hv
    have hs : row.store op.offset (op.size row) = row := by
      funext p
      rw [PayloadRow.store, hsi, hb]
      split_ifs with hp
      · have hlt : p - op.offset < 8 := by omega
        simp [PayloadRow.bytes, hlt, Nat.add_sub_cancel' hp.1]
      · rfl
    rw [hs]

theorem pointersOnly_storePointer : PointersOnly [op] row (op.storePointer row pointer) := by
  intro p hp
  have ho := hp op mem_cons_self
  rw [storePointer_eq, PayloadRow.store, if_neg (by omega)]

theorem data_storePointer : op.data (op.storePointer row pointer) = pointer := by
  have hb : (row.store (op.offset + 8) pointer).bytes (op.offset + 8) 8 = leBytes 8 pointer.toNat := by
    apply ext_getElem (by simp [PayloadRow.bytes])
    intro i hi hi'
    rw [length_leBytes] at hi'
    simp [PayloadRow.bytes, PayloadRow.store, hi']
  rw [storePointer_eq, data, PayloadRow.load, hb, leValue_leBytes,
    Nat.mod_eq_of_lt (show pointer.toNat < 256 ^ 8 from pointer.toNat_lt), UInt64.ofNat_toNat]

theorem Laid.start_le (h : Laid nullBytes start ops) : ∀ op ∈ ops, start ≤ op.offset := by
  induction ops generalizing start with
  | nil => exact fun _ hop => nomatch hop
  | cons op ops ih =>
    obtain ⟨-, hs, h⟩ := h
    rw [forall_mem_cons]
    refine ⟨hs, fun other ho => ?_⟩
    have := ih h other ho
    omega

theorem pointersOnly_restore :
    PointersOnly ops row (restorePayloadPointersAndGetHeapSize payloadHeap available ops heapSize row).1 := by
  induction ops generalizing heapSize row with
  | nil => exact fun _ _ => rfl
  | cons op ops ih =>
    intro p hp
    rw [forall_mem_cons] at hp
    rw [restorePayloadPointersAndGetHeapSize]
    split_ifs with hh hs
    · rfl
    · exact (ih p hp.2).trans (pointersOnly_storePointer p (by simpa using hp.1))
    · exact ih p hp.2

theorem load_congr {offset size : ℕ} (h : ∀ i, i < size → row' (offset + i) = row (offset + i)) :
    row'.load offset size = row.load offset size := by
  have hb : row'.bytes offset size = row.bytes offset size := map_congr_left fun i hi => h i (mem_range.mp hi)
  rw [PayloadRow.load, hb, PayloadRow.load]

theorem inHeap_size_congr (h : ∀ p, p < op.offset + 8 → row' p = row p) (hn : op.nullByte < op.offset) :
    op.inHeap row' = op.inHeap row ∧ op.size row' = op.size row := by
  have hs : op.size row' = op.size row := by
    refine load_congr fun i hi => h _ ?_
    split at hi <;> omega
  rw [inHeap, isNull, hs, h _ (by omega)]
  exact ⟨rfl, rfl⟩

/-- What is written behind a slot does not change it. -/
theorem PointersOnly.range?_eq (h : PointersOnly ops row row') (hl : Laid nullBytes (op.offset + 16) ops)
    (hn : op.nullByte < op.offset) : op.range? row' = op.range? row := by
  have hb : ∀ p, p < op.offset + 16 → row' p = row p := by
    intro p hp
    refine h p fun other ho => ?_
    have := hl.start_le other ho
    omega
  obtain ⟨hh, hs⟩ := inHeap_size_congr (fun p hp => hb p (by omega)) hn
  have hd : op.data row' = op.data row := load_congr fun i hi => hb _ (by omega)
  rw [VariableOp.range?, hh, hs, hd, VariableOp.range?]

theorem range?_storePointer (hn : op.nullByte < op.offset) (hh : op.inHeap row) :
    op.range? (op.storePointer row pointer) = some (pointer.toNat, (op.size row).toNat) := by
  have hst : PointersOnly [op] row (op.storePointer row pointer) := pointersOnly_storePointer
  obtain ⟨hh', hs⟩ := inHeap_size_congr (fun p hp => hst p (by simp [hp])) hn
  rw [VariableOp.range?, hh', if_pos hh, hs, data_storePointer]

/-- The check of a value: the bytes that are left suffice for it. -/
theorem toNat_add_of_fits {size : UInt64} (hs : heapSize ≤ available) (h : ¬available - heapSize < size) :
    (heapSize + size).toNat = heapSize.toNat + size.toNat ∧ heapSize + size ≤ available := by
  have hsu := UInt64.toNat_sub_of_le _ _ hs
  have := available.toNat_lt
  rw [UInt64.lt_iff_toNat_lt, hsu] at h
  rw [UInt64.le_iff_toNat_le] at hs ⊢
  rw [UInt64.toNat_add]
  omega

theorem le_available (hs : heapSize ≤ available)
    (h : (restorePayloadPointersAndGetHeapSize payloadHeap available ops heapSize row).2 = some total) :
    total ≤ available := by
  induction ops generalizing heapSize row with
  | nil => exact Option.some.inj h ▸ hs
  | cons op ops ih =>
    rw [restorePayloadPointersAndGetHeapSize] at h
    split_ifs at h with hh hf
    · exact ih (toNat_add_of_fits hs hf).2 h
    · exact ih hs h

/-- The slots of a row get consecutive ranges from `heapSize` on, unless their sizes exceed what is available. -/
theorem tiles_restore {last : ℕ} (hl : Laid nullBytes start ops) (hnu : nullBytes ≤ start)
    (hla : last ≤ payloadHeap.toNat + available.toNat) (hen : payloadHeap.toNat + available.toNat < 2 ^ 64)
    (hs : heapSize ≤ available) (row : PayloadRow) :
    let result := restorePayloadPointersAndGetHeapSize payloadHeap available ops heapSize row
    Tiles last (payloadHeap.toNat + heapSize.toNat) (ops.filterMap (·.range? result.1)) ↔
      ∃ total, result.2 = some total ∧ payloadHeap.toNat + total.toNat = last := by
  induction ops generalizing start heapSize row with
  | nil => simp [restorePayloadPointersAndGetHeapSize, Tiles]
  | cons op ops ih =>
    obtain ⟨hn, hst, hl⟩ := hl
    have hn : op.nullByte < op.offset := by omega
    rw [restorePayloadPointersAndGetHeapSize]
    split_ifs with hh hf
    · -- the value reaches beyond the heap, so its range is not part of a tiling
      rw [UInt64.lt_iff_toNat_lt, UInt64.toNat_sub_of_le _ _ hs] at hf
      have hso : op.range? row = some ((op.data row).toNat, (op.size row).toNat) := if_pos hh
      simp only [filterMap_cons, hso]
      refine iff_of_false (fun h => ?_) (by simp)
      have := Tiles.le h.2
      omega
    · obtain ⟨ha, hle⟩ := toNat_add_of_fits hs hf
      have hp : (payloadHeap + heapSize).toNat = payloadHeap.toNat + heapSize.toNat := by
        rw [UInt64.le_iff_toNat_le] at hs
        rw [UInt64.toNat_add, Nat.mod_eq_of_lt (by omega)]
      have hr := ih hl (by omega) hle (op.storePointer row (payloadHeap + heapSize))
      simp only [filterMap_cons, pointersOnly_restore.range?_eq hl hn, range?_storePointer hn hh, Tiles,
        hp, true_and]
      rwa [ha, ← Nat.add_assoc] at hr
    · have hno : op.range? row = none := if_neg hh
      simp only [filterMap_cons, pointersOnly_restore.range?_eq hl hn, hno]
      exact ih hl (by omega) hs row

theorem Laid.nullByte_lt (h : Laid nullBytes start ops) : ∀ op ∈ ops, op.nullByte < nullBytes := by
  induction ops generalizing start with
  | nil => exact fun _ hop => nomatch hop
  | cons op ops ih => exact forall_mem_cons.mpr ⟨h.1, ih h.2.2⟩

theorem Laid.disjoint (h : Laid nullBytes start ops) :
    ∀ op ∈ ops, ∀ other ∈ ops, op = other ∨ op.offset + 16 ≤ other.offset ∨ other.offset + 16 ≤ op.offset := by
  induction ops generalizing start with
  | nil => exact fun _ hop => nomatch hop
  | cons first ops ih =>
    have hbehind := h.2.2.start_le
    have hrest := ih h.2.2
    grind

/-- Pointers that are written change neither the sizes in the slots nor the null bits. -/
theorem PointersOnly.heapSize?_eq (h : PointersOnly ops row row') (hl : Laid nullBytes start ops)
    (hnu : nullBytes ≤ start) (hop : op ∈ ops) : op.heapSize? row' = op.heapSize? row := by
  have hnull : row' op.nullByte = row op.nullByte := by
    refine h _ fun other ho => .inl ?_
    have hlt := hl.nullByte_lt op hop
    have hle := hl.start_le other ho
    omega
  have hsize : op.size row' = op.size row := by
    refine load_congr fun i hi => h _ fun other ho => ?_
    have hlt : i < 8 := by split at hi <;> omega
    rcases hl.disjoint op hop other ho with rfl | hbefore | hbehind <;> omega
  rw [heapSize?, inHeap, isNull, hnull, hsize, heapSize?, inHeap, isNull]

theorem PointersOnly.heapSizes_eq (h : PointersOnly ops row row') (hl : Laid nullBytes start ops)
    (hnu : nullBytes ≤ start) : ops.filterMap (·.heapSize? row') = ops.filterMap (·.heapSize? row) :=
  filterMap_congr fun _ hop => h.heapSize?_eq hl hnu hop

/-- A row gets through where the sizes in its slots fit into what is available. -/
theorem restore_sum (hl : Laid nullBytes start ops) (hnu : nullBytes ≤ start) (hs : heapSize ≤ available)
    (row : PayloadRow) :
    let need := heapSize.toNat + (ops.filterMap (·.heapSize? row)).sum
    let result := (restorePayloadPointersAndGetHeapSize payloadHeap available ops heapSize row).2
    (result = none ↔ available.toNat < need) ∧ ∀ total, result = some total → total.toNat = need := by
  induction ops generalizing start heapSize row with
  | nil =>
    rw [UInt64.le_iff_toNat_le] at hs
    simp [restorePayloadPointersAndGetHeapSize, hs]
  | cons op ops ih =>
    obtain ⟨hn, hst, hl'⟩ := hl
    rw [restorePayloadPointersAndGetHeapSize]
    split_ifs with hh hf
    · have hsome : op.heapSize? row = some (op.size row).toNat := if_pos hh
      rw [UInt64.lt_iff_toNat_lt, UInt64.toNat_sub_of_le _ _ hs] at hf
      simp only [filterMap_cons, hsome, sum_cons, true_iff, reduceCtorEq, false_imp_iff, implies_true, and_true]
      omega
    · have hsome : op.heapSize? row = some (op.size row).toNat := if_pos hh
      obtain ⟨ha, hle⟩ := toNat_add_of_fits hs hf
      have hr := ih hl' (by omega) hle (op.storePointer row (payloadHeap + heapSize))
      have hpointers : PointersOnly (op :: ops) row (op.storePointer row (payloadHeap + heapSize)) :=
        fun p hp => pointersOnly_storePointer p fun other ho => hp other (by simp_all)
      have hsizes : ops.filterMap (·.heapSize? (op.storePointer row (payloadHeap + heapSize))) =
          ops.filterMap (·.heapSize? row) :=
        filterMap_congr fun other ho => hpointers.heapSize?_eq ⟨hn, hst, hl'⟩ hnu (mem_cons_of_mem _ ho)
      rw [hsizes, ha] at hr
      simpa only [filterMap_cons, hsome, sum_cons, Nat.add_assoc] using hr
    · have hnone : op.heapSize? row = none := if_neg hh
      simp only [filterMap_cons, hnone]
      exact ih hl' (by omega) hs row

end Row

/-! ## The block -/

/-- The sizes of the values in the heap, in the order of the rows and columns. -/
def heapSizes (ops : List VariableOp) (rows : List PayloadRow) : List ℕ :=
  rows.flatMap fun row => ops.filterMap (·.heapSize? row)

/-- The ranges of the values in the heap, in the order of the rows and columns. -/
def heapRanges (ops : List VariableOp) (rows : List PayloadRow) : List (ℕ × ℕ) :=
  rows.flatMap fun row => ops.filterMap (·.range? row)

/-- The heap pointer of a row is not behind the end, nor the heap size at a slot above what is available. -/
def NoSubtractionWraps (ops : List VariableOp) (rows : List PayloadRow) (payloadHeap payloadHeapEnd : UInt64) :
    Prop :=
  payloadHeap ≤ payloadHeapEnd → ∀ i row j heapSize, rows[i]? = some row →
    let heap := (restoreRows ops payloadHeapEnd payloadHeap (rows.take i)).2.1
    heap ≤ payloadHeapEnd ∧ ((restorePayloadPointersAndGetHeapSize heap (payloadHeapEnd - heap) (ops.take j) 0 row).2 =
      some heapSize → heapSize ≤ payloadHeapEnd - heap)

section Block

variable {nullBytes : ℕ} {ops : List VariableOp} {payloadHeap payloadHeapEnd : UInt64} (rows : List PayloadRow)
  (hl : Laid nullBytes nullBytes ops) (hle : payloadHeap ≤ payloadHeapEnd)
include hl hle

theorem restore_spec {row row' : PayloadRow} {size : Option UInt64}
    (h : restorePayloadPointersAndGetHeapSize payloadHeap (payloadHeapEnd - payloadHeap) ops 0 row = (row', size)) :
    PointersOnly ops row row' ∧
      (∀ total, size = some total → (payloadHeap + total).toNat = payloadHeap.toNat + total.toNat ∧
        payloadHeap + total ≤ payloadHeapEnd) ∧
      ∀ last, last ≤ payloadHeapEnd.toNat → (Tiles last payloadHeap.toNat (ops.filterMap (·.range? row')) ↔
        ∃ total, size = some total ∧ payloadHeap.toNat + total.toNat = last) := by
  obtain ⟨rfl, rfl⟩ := Prod.mk.inj h.symm
  have hs := UInt64.toNat_sub_of_le _ _ hle
  have hen := payloadHeapEnd.toNat_lt
  have hh := UInt64.le_iff_toNat_le.mp hle
  refine ⟨pointersOnly_restore, fun total ht => ?_, fun last hla => ?_⟩
  · have hf := le_available UInt64.zero_le ht
    exact toNat_add_of_fits hle (UInt64.not_lt.mpr hf)
  · exact tiles_restore hl le_rfl (by omega) (by omega) UInt64.zero_le row

theorem restoreRows_spec :
    let result := restoreRows ops payloadHeapEnd payloadHeap rows
    Forall₂ (PointersOnly ops) rows result.1 ∧ result.2.1 ≤ payloadHeapEnd ∧
      (Tiles payloadHeapEnd.toNat payloadHeap.toNat (heapRanges ops result.1) ↔
        result.2.2 = true ∧ result.2.1 = payloadHeapEnd) := by
  induction rows generalizing payloadHeap with
  | nil => exact ⟨.nil, hle, by simp [restoreRows, heapRanges, Tiles, UInt64.toNat_inj]⟩
  | cons row rows ih =>
    rw [restoreRows]
    rcases hre : restorePayloadPointersAndGetHeapSize payloadHeap (payloadHeapEnd - payloadHeap) ops 0 row with
      ⟨row', _ | size⟩
    all_goals obtain ⟨hro, hs, ht⟩ := restore_spec hl hle hre
    · refine ⟨.cons hro (forall₂_same.mpr fun _ _ _ _ => rfl), hle, iff_of_false (fun h => ?_) (by simp)⟩
      obtain ⟨middle, hf, hr⟩ := (tiles_append _).mp h
      obtain ⟨total, hto, -⟩ := (ht middle hr.le).mp hf
      exact nomatch hto
    · obtain ⟨ha, hle'⟩ := hs size rfl
      obtain ⟨hrow, hh, hiff⟩ := ih hle'
      refine ⟨.cons hro hrow, hh, Iff.trans ?_ hiff⟩
      rw [ha]
      refine (tiles_append _).trans ⟨fun h => ?_, fun h => ⟨_, (ht _ h.le).mpr ⟨size, rfl, rfl⟩, h⟩⟩
      obtain ⟨middle, hf, hr⟩ := h
      obtain ⟨total, hto, rfl⟩ := (ht middle hr.le).mp hf
      exact Option.some.inj hto ▸ hr

/-- The rows get through where the sizes in all slots fit, and the heap pointer moves by their sum. -/
theorem restoreRows_sum :
    let result := restoreRows ops payloadHeapEnd payloadHeap rows
    (result.2.2 = true ↔ payloadHeap.toNat + (heapSizes ops rows).sum ≤ payloadHeapEnd.toNat) ∧
      (result.2.2 = true → result.2.1.toNat = payloadHeap.toNat + (heapSizes ops rows).sum) := by
  induction rows generalizing payloadHeap with
  | nil =>
    rw [UInt64.le_iff_toNat_le] at hle
    simp [restoreRows, heapSizes, hle]
  | cons row rows ih =>
    have hsum : (heapSizes ops (row :: rows)).sum = (ops.filterMap (·.heapSize? row)).sum + (heapSizes ops rows).sum := by
      rw [heapSizes, flatMap_cons, sum_append, heapSizes]
    obtain ⟨hnone, hsome⟩ := @restore_sum nullBytes nullBytes ops payloadHeap (payloadHeapEnd - payloadHeap) 0 hl
      (Nat.le_refl _) UInt64.zero_le row
    rw [UInt64.toNat_sub_of_le _ _ hle] at hnone
    have hle' := UInt64.le_iff_toNat_le.mp hle
    rw [restoreRows, hsum]
    rcases hre : restorePayloadPointersAndGetHeapSize payloadHeap (payloadHeapEnd - payloadHeap) ops 0 row with
      ⟨row', _ | size⟩
    all_goals rw [hre] at hnone hsome
    · have hlt := hnone.mp rfl
      simp only [Bool.false_eq_true, false_iff, false_imp_iff, and_true]
      simp only [UInt64.toNat_zero] at hlt
      omega
    · obtain ⟨-, hs, -⟩ := restore_spec hl hle hre
      obtain ⟨ha, hend⟩ := hs size rfl
      have htotal := hsome size rfl
      obtain ⟨hiff, hheap⟩ := ih hend
      simp only [UInt64.toNat_zero, Nat.zero_add] at htotal
      rw [ha, htotal] at hiff hheap
      exact ⟨by rw [hiff]; omega, fun h => by rw [hheap h]; omega⟩

end Block

theorem heapSizes_eq_map {nullBytes : ℕ} {ops : List VariableOp} (hl : Laid nullBytes nullBytes ops)
    {rows rows' : List PayloadRow} (h : Forall₂ (PointersOnly ops) rows rows') :
    (heapRanges ops rows').map Prod.snd = heapSizes ops rows := by
  induction h with
  | nil => rfl
  | @cons row row' rows rows' hrow _ ih =>
    have hsnd : (ops.filterMap (·.range? row')).map Prod.snd = ops.filterMap (·.heapSize? row') := by
      rw [map_filterMap]
      refine filterMap_congr fun op _ => ?_
      unfold VariableOp.range? VariableOp.heapSize?
      split <;> rfl
    rw [heapRanges, flatMap_cons, map_append, hsnd, hrow.heapSizes_eq hl (Nat.le_refl _)]
    exact congrArg _ ih

/-- A block is accepted just when the sizes in its slots add up to the length of the heap. The
slots of an accepted block have pointers to consecutive ranges that cover the heap, of the
sizes that were in the slots, and the heap pointer is at the end. Nothing but the pointers of
slots is written, and no subtraction wraps. -/
theorem restorePayloadPointersInSectionRows_iff_tiles (sectionMeta : RadixSortSpillSectionMeta) (rows : List PayloadRow)
    (payloadHeap payloadHeapEnd : UInt64) :
    let result := restorePayloadPointersInSectionRows sectionMeta rows payloadHeap payloadHeapEnd
    (result.2.2 = true ↔
      payloadHeap.toNat + (heapSizes sectionMeta.payloadVariableOps rows).sum = payloadHeapEnd.toNat) ∧
    (result.2.2 = true ↔
      Tiles payloadHeapEnd.toNat payloadHeap.toNat (heapRanges sectionMeta.payloadVariableOps result.1)) ∧
    (heapRanges sectionMeta.payloadVariableOps result.1).map Prod.snd = heapSizes sectionMeta.payloadVariableOps rows ∧
    (result.2.2 = true → result.2.1 = payloadHeapEnd) ∧
    Forall₂ (PointersOnly sectionMeta.payloadVariableOps) rows result.1 ∧
    NoSubtractionWraps sectionMeta.payloadVariableOps rows payloadHeap payloadHeapEnd := by
  have hwraps : NoSubtractionWraps sectionMeta.payloadVariableOps rows payloadHeap payloadHeapEnd := fun hle i _ _ _ _ =>
    ⟨(restoreRows_spec (rows.take i) sectionMeta.laid hle).2.1, le_available UInt64.zero_le⟩
  have hsame : Forall₂ (PointersOnly sectionMeta.payloadVariableOps) rows rows := forall₂_same.mpr fun _ _ _ _ => rfl
  unfold restorePayloadPointersInSectionRows
  split_ifs with hbehind hnone
  · rw [UInt64.lt_iff_toNat_lt] at hbehind
    refine ⟨iff_of_false nofun (by omega), iff_of_false nofun fun h => ?_, heapSizes_eq_map sectionMeta.laid hsame, nofun,
      hsame, hwraps⟩
    have := h.le
    omega
  · have hops : sectionMeta.payloadVariableOps = [] := by
      rw [Bool.or_eq_true, Bool.not_eq_true', List.isEmpty_iff] at hnone
      exact hnone.elim sectionMeta.no_payload id
    have hempty : heapRanges [] rows = [] := flatMap_eq_nil_iff.mpr fun _ _ => rfl
    have hzero : heapSizes [] rows = [] := flatMap_eq_nil_iff.mpr fun _ _ => rfl
    refine ⟨?_, ?_, heapSizes_eq_map sectionMeta.laid hsame, by simp, hsame, hwraps⟩
    · simp [hops, hzero, UInt64.toNat_inj]
    · simp [hops, hempty, Tiles, UInt64.toNat_inj]
  · have hle := UInt64.not_lt.mp hbehind
    obtain ⟨hrows, hheap, htiles⟩ := restoreRows_spec rows sectionMeta.laid hle
    obtain ⟨hfits, hmoved⟩ := restoreRows_sum rows sectionMeta.laid hle
    refine ⟨?_, Iff.trans ?_ htiles.symm, heapSizes_eq_map sectionMeta.laid hrows, by simp, hrows, hwraps⟩
    · rw [Bool.and_eq_true, beq_iff_eq, ← UInt64.toNat_inj]
      constructor
      · rintro ⟨hok, hend⟩
        rw [← hend, hmoved hok]
      · intro heq
        have hok := hfits.mpr heq.le
        exact ⟨hok, (hmoved hok).trans heq⟩
    · simp

/-- Rows of a string and a complex value. -/
def stringAndComplex : RadixSortSpillSectionMeta := .create (some [.inr .string, .inr .complex])

/-- A row whose string has 13 bytes and whose complex value has 5. -/
def longStringRow : PayloadRow := fun p => if p = 0 then 3 else if p = 1 then 13 else if p = 17 then 5 else 0

/-- Two such rows fill a heap of 36 bytes. -/
theorem restorePayloadPointersInSectionRows_longStrings :
    let result := restorePayloadPointersInSectionRows stringAndComplex [longStringRow, longStringRow] 4096 4132
    result.2.2 = true ∧ result.2.1 = 4132 ∧
      Tiles 4132 4096 (heapRanges stringAndComplex.payloadVariableOps result.1) := by
  obtain ⟨haccepts, htiles, -, hend, -⟩ :=
    restorePayloadPointersInSectionRows_iff_tiles stringAndComplex [longStringRow, longStringRow] 4096 4132
  have hok := haccepts.mpr (by decide)
  exact ⟨hok, hend hok, htiles.mp hok⟩

end Bolt.RadixSort
