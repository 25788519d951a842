import Bolt.RadixSort.Run
import Bolt.RadixSort.SorterCorrect

/-!
# Sorting the records of a run

The sorter walks the key blocks with an iterator of a block and an index in it. Its
operations, with their unsigned arithmetic and the multiplication that replaces a division,
are those of a position in the sequence of records, so the blocks end up sorted.
-/

namespace Bolt.RadixSort

open Lib Lib.Sorting Lib.OrderCode Data

structure SegmentedKeyIterator where
  blockIndex : ℕ
  tupleIndex : ℕ
  deriving DecidableEq, Repr

def randomAccess (divisor index : ℕ) : SegmentedKeyIterator :=
  if divisor = 1 then ⟨index, 0⟩
  else
    let multiplier := (2 ^ 64 - 1) / divisor + 1
    let blockIndex := index * multiplier / 2 ^ 64
    ⟨blockIndex, (index + 2 ^ 64 - blockIndex * divisor % 2 ^ 64) % 2 ^ 64⟩

namespace SegmentedKeyIterator

def index (divisor : ℕ) (it : SegmentedKeyIterator) : ℕ := (it.blockIndex * divisor + it.tupleIndex) % 2 ^ 64

/-- `operator++`. -/
def increment (divisor : ℕ) (it : SegmentedKeyIterator) : SegmentedKeyIterator :=
  if it.tupleIndex + 1 = divisor then ⟨it.blockIndex + 1, 0⟩ else ⟨it.blockIndex, it.tupleIndex + 1⟩

/-- `operator--`. -/
def decrement (divisor : ℕ) (it : SegmentedKeyIterator) : SegmentedKeyIterator :=
  if it.tupleIndex = 0 then ⟨it.blockIndex - 1, divisor - 1⟩ else ⟨it.blockIndex, it.tupleIndex - 1⟩

/-- What `operator+=` and `operator-=` do once the index in the block has changed. -/
def normalize (divisor : ℕ) (it : SegmentedKeyIterator) : SegmentedKeyIterator :=
  if it.tupleIndex ≥ divisor then randomAccess divisor (it.index divisor) else it

/-- `operator+=`. -/
def advance (divisor offset : ℕ) (it : SegmentedKeyIterator) : SegmentedKeyIterator :=
  normalize divisor ⟨it.blockIndex, (it.tupleIndex + offset) % 2 ^ 64⟩

/-- `operator-=`. An offset larger than the index in the block wraps around. -/
def retreat (divisor offset : ℕ) (it : SegmentedKeyIterator) : SegmentedKeyIterator :=
  normalize divisor ⟨it.blockIndex, (it.tupleIndex + 2 ^ 64 - offset) % 2 ^ 64⟩

def ofPosition (divisor position : ℕ) : SegmentedKeyIterator := ⟨position / divisor, position % divisor⟩

end SegmentedKeyIterator

def Addressable (divisor position : ℕ) : Prop := position * divisor < 2 ^ 64

/-- The rounded-up reciprocal is too large by less than the positions notice. -/
private theorem mul_reciprocal_div {divisor position : ℕ} (hdivisor : 0 < divisor) (h : Addressable divisor position) :
    position * ((2 ^ 64 - 1) / divisor + 1) / 2 ^ 64 = position / divisor := by
  obtain ⟨excess, hexcess, hreciprocal⟩ :
      ∃ excess, excess < divisor ∧ ((2 ^ 64 - 1) / divisor + 1) * divisor = 2 ^ 64 + excess := by
    have hd := Nat.div_add_mod' (2 ^ 64 - 1) divisor
    have hm := Nat.mod_lt (2 ^ 64 - 1) hdivisor
    exact ⟨divisor - 1 - (2 ^ 64 - 1) % divisor, by omega, by rw [Nat.add_mul]; omega⟩
  generalize (2 ^ 64 - 1) / divisor + 1 = reciprocal at hreciprocal ⊢
  have hp : position * reciprocal * divisor = position * 2 ^ 64 + position * excess := by
    rw [Nat.mul_assoc, hreciprocal, Nat.mul_add]
  have herr : position * excess < 2 ^ 64 := (Nat.mul_le_mul_left position hexcess.le).trans_lt h
  have hl := Nat.div_mul_le_self position divisor
  have hh := Nat.lt_div_mul_add hdivisor (a := position)
  generalize position / divisor = block at hl hh ⊢
  refine Nat.div_eq_of_lt_le ?_ ?_
  · refine Nat.le_of_mul_le_mul_right ?_ hdivisor
    rw [hp, Nat.mul_right_comm]
    omega
  · refine Nat.lt_of_mul_lt_mul_right (a := divisor) ?_
    rw [hp, Nat.mul_right_comm, Nat.succ_mul]
    omega

theorem randomAccess_eq {divisor position : ℕ} (hdivisor : 0 < divisor) (h : Addressable divisor position) :
    randomAccess divisor position = .ofPosition divisor position := by
  rw [randomAccess, SegmentedKeyIterator.ofPosition]
  by_cases ho : divisor = 1
  · rw [if_pos ho, ho, Nat.div_one, Nat.mod_one]
  · simp only [if_neg ho, mul_reciprocal_div hdivisor h]
    congr 1
    have hd := Nat.div_add_mod' position divisor
    have hlt : position < 2 ^ 64 := (Nat.le_mul_of_pos_right _ hdivisor).trans_lt h
    omega

namespace SegmentedKeyIterator

variable {divisor position : ℕ}

theorem ofPosition_mul_add (block : ℕ) {tuple : ℕ} (h : tuple < divisor) :
    ofPosition divisor (divisor * block + tuple) = ⟨block, tuple⟩ := by
  rw [ofPosition, Nat.mul_add_div (by omega), Nat.mul_add_mod, Nat.div_eq_of_lt h, Nat.mod_eq_of_lt h, Nat.add_zero]

theorem increment_of_last (h : position % divisor + 1 = divisor) :
    (ofPosition divisor position).increment divisor = ⟨position / divisor + 1, 0⟩ := if_pos h

theorem increment_of_not_last (h : position % divisor + 1 ≠ divisor) :
    (ofPosition divisor position).increment divisor = ⟨position / divisor, position % divisor + 1⟩ := if_neg h

section

variable (hdivisor : 0 < divisor)
include hdivisor

theorem increment_ofPosition (position : ℕ) :
    (ofPosition divisor position).increment divisor = ofPosition divisor (position + 1) := by
  have hm := Nat.mod_lt position hdivisor
  have hd := Nat.div_add_mod position divisor
  by_cases hl : position % divisor + 1 = divisor
  · have hn : position + 1 = divisor * (position / divisor + 1) := by rw [Nat.mul_add]; omega
    rw [increment_of_last hl, hn]
    exact (ofPosition_mul_add _ hdivisor).symm
  · have hn : position + 1 = divisor * (position / divisor) + (position % divisor + 1) := by omega
    rw [increment_of_not_last hl, hn]
    exact (ofPosition_mul_add _ (by omega)).symm

theorem decrement_ofPosition (position : ℕ) :
    (ofPosition divisor (position + 1)).decrement divisor = ofPosition divisor position := by
  rw [← increment_ofPosition hdivisor]
  by_cases hl : position % divisor + 1 = divisor
  · rw [increment_of_last hl, decrement, if_pos rfl, ofPosition]
    congr 1
    omega
  · rw [increment_of_not_last hl, decrement, if_neg (Nat.succ_ne_zero _)]
    rfl

/-- The index in the block may leave the block, as long as the index it stands for is right. -/
theorem normalize_eq {it : SegmentedKeyIterator} (h : Addressable divisor position) (hind : it.index divisor = position)
    (hins : it.tupleIndex < divisor → it.blockIndex * divisor + it.tupleIndex < 2 ^ 64) :
    it.normalize divisor = ofPosition divisor position := by
  rw [normalize]
  split
  · rw [hind, randomAccess_eq hdivisor h]
  · rename_i hlt
    have hlt : it.tupleIndex < divisor := Nat.not_le.mp hlt
    rw [index, Nat.mod_eq_of_lt (hins hlt)] at hind
    rw [← hind, Nat.mul_comm, ofPosition_mul_add _ hlt]

private theorem position_add_le (hmax : divisor < 2 ^ 64) (h : Addressable divisor position) :
    position + divisor ≤ 2 ^ 64 := by
  cases position with
  | zero => omega
  | succ position =>
    have hle := Nat.le_mul_of_pos_right position hdivisor
    have hlt : position * divisor + divisor < 2 ^ 64 := Nat.succ_mul position divisor ▸ h
    omega

/-- Moved by any number modulo `2 ^ 64`, the index in the block stands for the moved position. -/
theorem normalize_ofPosition {target : ℕ} (hmax : divisor < 2 ^ 64) (h : Addressable divisor position)
    (htarget : Addressable divisor target) {offset : ℕ} (hm : (position + offset) % 2 ^ 64 = target) :
    normalize divisor ⟨position / divisor, (position % divisor + offset) % 2 ^ 64⟩ = ofPosition divisor target := by
  have hlt := position_add_le hdivisor hmax h
  have ht := position_add_le hdivisor hmax htarget
  have hd := Nat.div_add_mod' position divisor
  refine normalize_eq hdivisor htarget ?_ ?_
  · simp only [index]
    omega
  · dsimp only
    omega

end

/-- Multiplying finds the block and the index in it of every position, and every move of an
iterator between positions ends at the block and the index of the position it is meant for. The
offsets count modulo `2 ^ 64`, so that they may be read as signed or unsigned numbers. -/
theorem segmentedKeys_exact (hdivisor : 1 ≤ divisor) (hmax : divisor < 2 ^ 64) (h : position * divisor < 2 ^ 64) :
    randomAccess divisor position = ⟨position / divisor, position % divisor⟩ ∧ ∀ target, target * divisor < 2 ^ 64 →
        (target = position + 1 → (ofPosition divisor position).increment divisor = ofPosition divisor target) ∧
        (target + 1 = position → (ofPosition divisor position).decrement divisor = ofPosition divisor target) ∧
        ∀ offset : BitVec 64, ((position + offset.toNat) % 2 ^ 64 = target →
            (ofPosition divisor position).advance divisor offset.toNat = ofPosition divisor target) ∧
          (position = (target + offset.toNat) % 2 ^ 64 →
            (ofPosition divisor position).retreat divisor offset.toNat = ofPosition divisor target) := by
  refine ⟨randomAccess_eq hdivisor h, fun target htarget => ⟨?_, ?_, fun offset => ⟨?_, fun hback => ?_⟩⟩⟩
  · intro hnext
    rw [hnext]
    exact increment_ofPosition hdivisor position
  · intro hprevious
    rw [← hprevious]
    exact decrement_ofPosition hdivisor target
  · exact normalize_ofPosition hdivisor hmax h htarget
  · have hle := position_add_le hdivisor hmax htarget
    rw [retreat, Nat.add_sub_assoc offset.isLt.le]
    exact normalize_ofPosition hdivisor hmax h htarget (by omega)

/-- Back from the first key of the third block of 5 to the last one of the first. -/
theorem segmentedKeys_exact_retreat : (ofPosition 5 10).retreat 5 (6#64).toNat = ofPosition 5 4 :=
  (((segmentedKeys_exact (by decide) (by decide) (by decide)).2 4 (by decide)).2.2 6).2 (by decide)

end SegmentedKeyIterator

/-! ## The kernels obey the laws -/

section Laws

variable {kind : RadixSortKeyLayoutKind}

theorem radixByteLimit_le (kind : RadixSortKeyLayoutKind) (complete : Bool) :
    radixByteLimit kind complete ≤ kind.inlineCapacity := by
  unfold radixByteLimit
  split
  · exact Nat.le_refl _
  · split
    · exact Nat.le_refl _
    · exact Nat.min_le_left _ _

private theorem getElem?_encodedBytes (record : KeyRecord kind) {offset : ℕ} (h : offset < kind.inlineCapacity) :
    record.encodedBytes[offset]? = some (record.encodedByte offset) := by
  rw [record.encodedByte_eq h, List.getD_eq_getElem?_getD,
    List.getElem?_eq_getElem (by rw [record.length_encodedBytes]; exact h), Option.getD_some]

theorem encodedBytes_eq_of_agree {left right : KeyRecord kind}
    (h : ∀ i, i < kind.inlineCapacity → left.encodedByte i = right.encodedByte i) :
    left.encodedBytes = right.encodedBytes := by
  refine List.ext_getElem? fun i => ?_
  by_cases hi : i < kind.inlineCapacity
  · rw [getElem?_encodedBytes left hi, getElem?_encodedBytes right hi, h i hi]
  · rw [List.getElem?_eq_none (by rw [left.length_encodedBytes]; omega),
      List.getElem?_eq_none (by rw [right.length_encodedBytes]; omega)]

/-- The first inline byte on which records differ decides their order. -/
theorem storedKeyOrder_eq_lt (heapKeyOffset : ℕ) {left right : KeyRecord kind} {offset : ℕ}
    (ho : offset < kind.inlineCapacity)
    (ha : ∀ i, i < offset → left.encodedByte i = right.encodedByte i)
    (hlt : left.encodedByte offset < right.encodedByte offset) : storedKeyOrder heapKeyOffset left right = .lt := by
  have hc : compare left.encodedBytes right.encodedBytes = .lt :=
    compare_eq_lt_of_getElem?
      (fun i hi => by
        rw [getElem?_encodedBytes left (by omega), getElem?_encodedBytes right (by omega), ha i hi])
      (getElem?_encodedBytes left ho) (getElem?_encodedBytes right ho) (Std.compare_eq_lt.mpr hlt)
  rw [storedKeyOrder, hc]
  rfl

theorem kernelFor_laws (layout : RadixSortKeyLayout) (uninitialized : ℕ → ℕ) (skippable : List ℕ) :
    KernelLaws (kernelFor layout uninitialized skippable) := by
  have hl := @strictWeakOrder_radixSortKeyLess layout.kind layout.heapKeyOffset
  have hli := radixByteLimit_le layout.kind
    (layout.kind.isVariable && layout.radixWidth == layout.kind.inlineCapacity)
  constructor
  · exact hl
  · intro offset hof left right ha hlt
    refine hl.asymm ?_
    rw [radixSortKeyLess_eq, storedKeyOrder_eq_lt layout.heapKeyOffset (lt_of_lt_of_le hof hli) ha hlt]
    rfl
  · intro _
    have ho := strictWeak_isLT (@suffixOrder layout.kind layout.heapKeyOffset
      (radixByteLimit layout.kind (layout.kind.isVariable && layout.radixWidth == layout.kind.inlineCapacity)))
    simp only [← signOf_compareSuffix, signOf_isLT] at ho
    exact ho
  · intro hco left right ha
    have hco : (layout.kind.isVariable && layout.radixWidth == layout.kind.inlineCapacity) = true := hco
    have hc : radixByteLimit layout.kind
        (layout.kind.isVariable && layout.radixWidth == layout.kind.inlineCapacity) = layout.kind.inlineCapacity := by
      rw [hco]
      rfl
    have hb : left.encodedBytes = right.encodedBytes :=
      encodedBytes_eq_of_agree fun i hi => ha i (lt_of_lt_of_eq hi hc.symm)
    change decide (compareSuffix left right layout.heapKeyOffset _ < 0) = radixSortKeyLess _ left right
    rw [hc, radixSortKeyLess_eq, storedKeyOrder, hb, Std.ReflOrd.compare_self,
      (Bool.and_eq_true_iff.mp hco).1, ← signOf_isLT, signOf_compareSuffix]
    rfl
  · intro hf left right ha
    obtain ⟨hfi, hc⟩ : layout.kind.isVariable = false ∧ layout.kind.inlineCapacity ≤ radixByteLimit layout.kind
        (layout.kind.isVariable && layout.radixWidth == layout.kind.inlineCapacity) := by
      simpa [kernelFor] using hf
    have hb : left.encodedBytes = right.encodedBytes :=
      encodedBytes_eq_of_agree fun i hi => ha i (lt_of_lt_of_le hi hc)
    change radixSortKeyLess _ left right = false
    rw [radixSortKeyLess_eq, storedKeyOrder, hb, Std.ReflOrd.compare_self, hfi]
    rfl

end Laws

/-! ## The blocks of a run -/

/-- `RadixSortRunSorter::sort` without a codec: the records stay in their blocks, in the
order the kernel leaves them in. -/
def RadixSortRunSorter.sort (S : ComparisonSort) (M : ComparisonMerge) (layout : RadixSortKeyLayout)
    (uninitialized : ℕ → ℕ) (skippableByteOffsets : List ℕ)
    (arena : Segments (KeyRecord layout.kind) (keysPerBlock layout.kind)) :
    Option (Segments (KeyRecord layout.kind) (keysPerBlock layout.kind)) :=
  match adaptiveSort S M (kernelFor layout uninitialized skippableByteOffsets) arena.toList with
  | none => none
  | some records => if h : records.length = arena.toList.length then some (arena.refill records h) else none

theorem skipsSound_nil (layout : RadixSortKeyLayout) (uninitialized : ℕ → ℕ) (range : List (KeyRecord layout.kind)) :
    SkipsSound (kernelFor layout uninitialized []) range := by
  intro offset _ hs
  simp [byteIsSkippable, kernelFor, skippableMask] at hs

theorem compareKeys_nonpos {kind : RadixSortKeyLayoutKind} {heapKeyOffset : ℕ} {earlier later : KeyRecord kind}
    (h : radixSortKeyLess heapKeyOffset later earlier = false) : compareKeys heapKeyOffset earlier later ≤ 0 := by
  have hs : storedKeyOrder heapKeyOffset later earlier = (storedKeyOrder heapKeyOffset earlier later).swap :=
    Std.OrientedCmp.eq_swap
  rw [radixSortKeyLess_eq, hs, ← signOf_compareKeys] at h
  by_contra hp
  have hgt : signOf (compareKeys heapKeyOffset earlier later) = .gt := Int.compare_eq_gt.mpr (by omega)
  rw [hgt] at h
  cases h

/-- The sorter ends, with the blocks holding the same records in the order of the keys,
whenever the bytes it skips are the same in all records. -/
theorem RadixSortRunSorter.sort_spec (S : ComparisonSort) (M : ComparisonMerge) (layout : RadixSortKeyLayout)
    (uninitialized : ℕ → ℕ) {skippable : List ℕ}
    (arena : Segments (KeyRecord layout.kind) (keysPerBlock layout.kind))
    (hsk : SkipsSound (kernelFor layout uninitialized skippable) arena.toList) :
    ∃ sorted, RadixSortRunSorter.sort S M layout uninitialized skippable arena = some sorted ∧
      sorted.toList.Perm arena.toList ∧
      sorted.toList.Pairwise fun earlier later => compareKeys layout.heapKeyOffset earlier later ≤ 0 := by
  obtain ⟨records, hs, hp, hso⟩ := adaptiveSort_sorts S M (kernelFor_laws layout uninitialized skippable) hsk
  refine ⟨arena.refill records hp.length_eq, ?_, ?_, ?_⟩
  · rw [RadixSortRunSorter.sort, hs]
    exact dif_pos hp.length_eq
  · rw [Segments.refill_toList]
    exact hp
  · rw [Segments.refill_toList]
    exact hso.imp fun h => compareKeys_nonpos h

/-- For every layout, number of records and record contents, `adaptiveSort` ends and
leaves a permutation of the records that does not decrease under
`RadixSortKeyOps::compare`. -/
theorem adaptiveSort_nondecreasing (S : ComparisonSort) (M : ComparisonMerge) (layout : RadixSortKeyLayout)
    (uninitialized : ℕ → ℕ) (arena : Segments (KeyRecord layout.kind) (keysPerBlock layout.kind)) :
    ∃ sorted, RadixSortRunSorter.sort S M layout uninitialized [] arena = some sorted ∧ sorted.toList.Perm arena.toList ∧
      sorted.toList.Pairwise fun earlier later => compareKeys layout.heapKeyOffset earlier later ≤ 0 :=
  RadixSortRunSorter.sort_spec S M layout uninitialized arena (skipsSound_nil layout uninitialized arena.toList)

end Bolt.RadixSort
