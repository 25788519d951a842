import Bolt.Lib.Buckets
import Bolt.Lib.Loop
import Bolt.Lib.Ranges
import Bolt.Lib.Segments
import Bolt.RadixSort.KeyCompare

/-!
# The run sorter

`RadixSortRunSorterKernel` without its floating-point variants. Iterators are positions,
a range of records is the list of its records, and work on a sub-range replaces that
part of the list. Every loop whose end is not evident runs with a bound on its steps; that
the bounds suffice is part of what is proved. `boost::sort::pdqsort_branchless` and
`std::inplace_merge` are parameters.
-/

namespace Bolt.RadixSort

open Lib Lib.Buckets Lib.Ranges Lib.Sorting Function

variable {α : Type}

def runDetectionCutoff : ℕ := 128

def comparisonFallbackCutoff : ℕ := 128

def largeBucketCutoff : ℕ := 1024

def effectiveRadixPassLimit : ℕ := 8

def freeRadixPassBucketLimit : ℕ := 2 ^ 2

def floorLog2 (value : ℕ) : ℕ := value.log2

/-- The template parameters and constants of a kernel. `uninitialized` is what the
counters of `cycleBucketSort` hold before they are set. -/
structure RadixSortRunSorterKernel (α : Type) where
  completePrefixRadix : Bool
  radixByteLimit : ℕ
  requiresFullKeyFallback : Bool
  radixByte : ℕ → α → UInt8
  less : α → α → Bool
  suffixLess : α → α → Bool
  skippableByteMask : BitVec 32
  uninitialized : ℕ → ℕ

/-- The variables of the detection loop. `beginUnstable` is none where the source holds
`last`; the next position is always one after `current`. -/
structure RunScan (α : Type) where
  records : List α
  runs : List ℕ
  beginUnstable : Option ℕ
  current : ℕ

def lessAt (less : α → α → Bool) (records : List α) (i j : ℕ) : Bool :=
  match records[i]?, records[j]? with
  | some left, some right => less left right
  | _, _ => false

/-- The test that ends a descending or an ascending run between a position and the next. -/
def endsRun (less : α → α → Bool) (records : List α) (descending : Bool) (i : ℕ) : Bool :=
  if descending then lessAt less records i (i + 1) else lessAt less records (i + 1) i

/-- The loop that walks back to the start of a run, and the correction after it. -/
def scanBackward (stop : ℕ → Bool) (beginRange : ℕ) : ℕ → ℕ
  | 0 => 0
  | current + 1 =>
    if stop current then current + 1
    else if current = beginRange then current
    else scanBackward stop beginRange current

/-- The loop that walks on to the end of a run. -/
def scanForward (stop : ℕ → Bool) : (remaining next : ℕ) → ℕ
  | 0, next => next
  | remaining + 1, next => if stop next then next else scanForward stop remaining (next + 1)

/-- What an iteration does with the run it found at `[current, nextForward)`: reverse it
if it descends, sort what is before it and unstable, and note the ends. -/
def acceptRun (fallback : List α → Option (List α)) (descending : Bool) (current nextForward : ℕ)
    (scan : RunScan α) : Option (RunScan α) :=
  let records :=
    if descending then
      replaceRange scan.records current nextForward (slice scan.records current nextForward).reverse
    else scan.records
  if scan.beginUnstable.isNone && current == scan.current then
    some { scan with records, runs := scan.runs ++ [nextForward] }
  else
    (onRange fallback records (scan.beginUnstable.getD scan.current) current).map fun records =>
      { scan with records, runs := scan.runs ++ [current, nextForward], beginUnstable := none }

/-- One iteration of the detection loop. The two branches of the source look for a
descending and for an ascending run. -/
def detectStep (less : α → α → Bool) (fallback : List α → Option (List α)) (unstableLimit last : ℕ)
    (scan : RunScan α) : Option (RunScan α ⊕ RunScan α) :=
  let unstable := { scan with beginUnstable := some (scan.beginUnstable.getD scan.current) }
  if last - (scan.current + 1) ≤ unstableLimit then some (.inr unstable)
  else
    let middle := scan.current + unstableLimit
    let descending := lessAt less scan.records (middle + 1) middle
    let stop := endsRun less scan.records descending
    let current := scanBackward stop scan.current middle
    let nextForward := scanForward (fun next => stop (next - 1)) (last - (middle + 2)) (middle + 2)
    let scanned :=
      if nextForward - current ≥ unstableLimit then acceptRun fallback descending current nextForward scan
      else some unstable
    scanned.map fun scan =>
      if nextForward = last then .inr scan else .inl { scan with current := nextForward }

def mergePass (M : ComparisonMerge) (less : α → α → Bool) : ℕ → List ℕ → List α → List ℕ × List α
  | begin, middle :: last :: runs, records =>
    let merged := M.merge less (slice records begin middle) (slice records middle last)
    let rest := mergePass M less last runs (replaceRange records begin last merged)
    (last :: rest.1, rest.2)
  | _, runs, records => (runs, records)

/-- The passes until one run is left. -/
def mergeStep (M : ComparisonMerge) (less : α → α → Bool) (state : List ℕ × List α) :
    Option ((List ℕ × List α) ⊕ List α) :=
  let merged := mergePass M less 0 state.1 state.2
  some (if merged.1.length > 1 then .inl merged else .inr merged.2)

/-- What follows the detection loop: the records that are still unstable are one more run. -/
def closeUnstable (fallback : List α → Option (List α)) (last : ℕ) (scan : RunScan α) : Option (RunScan α) :=
  match scan.beginUnstable with
  | some beginUnstable =>
    (onRange fallback scan.records beginUnstable last).map fun records =>
      { scan with records, runs := scan.runs ++ [last] }
  | none => some scan

/-- Merges the runs it finds and those the fallback sorts. -/
def detectRunsAndSort (M : ComparisonMerge) (less : α → α → Bool) (fallback : List α → Option (List α))
    (range : List α) : Option (List α) :=
  let size := range.length
  if size < runDetectionCutoff then fallback range
  else do
    let unstableLimit := size / floorLog2 size
    let scan ← Loop.iterate (detectStep less fallback unstableLimit size) (size + 1) ⟨range, [], none, 0⟩
    let scan ← closeUnstable fallback size scan
    if scan.runs.length < 2 then some scan.records
    else Loop.iterate (mergeStep M less) scan.runs.length (scan.runs, scan.records)

section Kernel

variable (S : ComparisonSort) (M : ComparisonMerge) (K : RadixSortRunSorterKernel α)

def comparisonSort (range : List α) : Option (List α) := some (S.sort K.less range)

def fullSort (range : List α) : Option (List α) :=
  if range.length < 2 then some range
  else if range.length < runDetectionCutoff then comparisonSort S K range
  else detectRunsAndSort M K.less (comparisonSort S K) range

def finishRadixSort (range : List α) : Option (List α) :=
  if K.completePrefixRadix then some (S.sort K.suffixLess range)
  else if K.requiresFullKeyFallback then fullSort S M K range
  else some range

def byteIsSkippable (byteOffset : ℕ) : Bool :=
  K.skippableByteMask &&& (1#32 <<< byteOffset) != 0#32

def bucketAt (offset : ℕ) (record : α) : ℕ := (K.radixByte offset record).toNat

def singleRadixBucket (offset : ℕ) : List α → Bool
  | [] => true
  | first :: rest => rest.all fun record => K.radixByte offset record == K.radixByte offset first

def isEffectiveRadixPass (bucketCount : ℕ) : Bool := bucketCount > freeRadixPassBucketLimit

/-- The passes counted after one more pass; the complete-prefix kernel counts none. -/
def nextPasses (effectivePasses bucketCount : ℕ) : ℕ :=
  if K.completePrefixRadix then effectivePasses
  else effectivePasses + (isEffectiveRadixPass bucketCount).toNat

/-- The test that abandons the radix sort. -/
def exceedsPassLimit (passes : ℕ) : Bool := !K.completePrefixRadix && passes > effectiveRadixPassLimit

/-- Whether nothing is left to sort after the pass over this byte. -/
def radixSortEndsAt (offset : ℕ) : Bool :=
  !K.requiresFullKeyFallback && offset + 1 == K.radixByteLimit

end Kernel

def countBuckets (bucket : α → ℕ) (range : List α) : List ℕ :=
  range.foldl (fun counts record => counts.modify (bucket record) (· + 1)) (List.replicate 256 0)

/-- Counters that start anywhere, with the words that say which were set. -/
structure Occupancy where
  counts : ℕ → ℕ
  occupied : ℕ → BitVec 64

/-- One iteration of the counting loop of the complete-prefix kernel. -/
def Occupancy.add (o : Occupancy) (bucket : ℕ) : Occupancy :=
  let mask := 1#64 <<< (bucket % 64)
  let word := o.occupied (bucket / 64)
  if word &&& mask = 0#64 then
    ⟨update o.counts bucket 1, update o.occupied (bucket / 64) (word ||| mask)⟩
  else ⟨update o.counts bucket (o.counts bucket + 1), o.occupied⟩

def countOccupied (uninitialized : ℕ → ℕ) (bucket : α → ℕ) (range : List α) : Occupancy :=
  range.foldl (fun o record => o.add (bucket record)) ⟨uninitialized, fun _ => 0#64⟩

/-- The loop that takes the lowest bit off a word until none is left. -/
def setBits : ℕ → BitVec 64 → List ℕ
  | 0, _ => []
  | fuel + 1, word =>
    if word = 0#64 then [] else word.ctz.toNat :: setBits fuel (word &&& (word - 1#64))

def Occupancy.buckets (o : Occupancy) : List ℕ :=
  (List.range 4).flatMap fun wordIndex => (setBits 64 (o.occupied wordIndex)).map (wordIndex * 64 + ·)

/-- Where the buckets begin and end in the sorted range, as `cycleBucketSort` computes it
for the buckets that occur. -/
def bucketBounds (uninitialized counts : ℕ → ℕ) (remaining : List ℕ) : (ℕ → ℕ) × (ℕ → ℕ) × ℕ :=
  remaining.foldl
    (fun (offsets, ends, total) bucket =>
      (update offsets bucket total, update ends bucket (total + counts bucket),
        total + counts bucket))
    (uninitialized, uninitialized, 0)

/-- The variables of the cycle loop: `current` is the bucket being filled and `later` are
the buckets after it. -/
structure CycleState (α : Type) where
  records : List α
  offsets : ℕ → ℕ
  iterator : ℕ
  current : ℕ
  later : List ℕ

/-- The loop that looks for the next bucket with a free position. It gives up at the
last bucket. -/
def nextUnfilledBucket (offsets ends : ℕ → ℕ) : List ℕ → Option (ℕ × List ℕ)
  | bucket :: next :: later =>
    if offsets bucket ≠ ends bucket then some (bucket, next :: later)
    else nextUnfilledBucket offsets ends (next :: later)
  | _ => none

/-- One step of the cycle that moves every record into its bucket. -/
def cycleStep (bucket : α → ℕ) (ends : ℕ → ℕ) (lastElement : ℕ) (s : CycleState α) : Option (CycleState α ⊕ List α) :=
  (s.records[s.iterator]?).map fun record =>
    if bucket record = s.current then
      if s.iterator + 1 = lastElement then .inr s.records
      else if s.iterator + 1 = ends s.current then
        match nextUnfilledBucket s.offsets ends s.later with
        | none => .inr s.records
        | some (current, later) => .inl { s with iterator := s.offsets current, current, later }
      else .inl { s with iterator := s.iterator + 1 }
    else
      .inl
        { s with
          records := swap s.records s.iterator (s.offsets (bucket record))
          offsets := update s.offsets (bucket record) (s.offsets (bucket record) + 1) }

def cyclePermute (bucket : α → ℕ) (offsets ends : ℕ → ℕ) (range : List α) : List ℕ → Option (List α)
  | current :: next :: later =>
    Loop.iterate (cycleStep bucket ends (range.length - 1)) (range.length + 1)
      ⟨range, offsets, offsets current, current, next :: later⟩
  | _ => some range

/-- The records and the positions where each bucket takes its next record. -/
structure Scatter (α : Type) where
  records : List α
  offsets : ℕ → ℕ

/-- The function `unrollLoopFourTimes` runs at each position. -/
def Scatter.placeAt (bucket : α → ℕ) (s : Scatter α) (position : ℕ) : Scatter α :=
  match s.records[position]? with
  | none => s
  | some record =>
    ⟨swap s.records position (s.offsets (bucket record)),
      update s.offsets (bucket record) (s.offsets (bucket record) + 1)⟩

/-- The predicate of `largeBucketSort`: it scatters the unplaced part of a bucket and
says whether some of the bucket is still unplaced. -/
def Scatter.scatterBucket (bucket : α → ℕ) (nextOffset : ℕ → ℕ) (s : Scatter α) (id : ℕ) : Scatter α × Bool :=
  if s.offsets id = nextOffset id then (s, false)
  else
    let out := (List.range' (s.offsets id) (nextOffset id - s.offsets id)).foldl (Scatter.placeAt bucket) s
    (out, out.offsets id != nextOffset id)

/-- `partitionBucketIds` over the first `count` ids. While every id so far satisfied the
predicate the source advances without the swap, which is then the swap of an id with
itself. -/
def partitionBucketIds {σ : Type} (predicate : σ → ℕ → σ × Bool) (count : ℕ) (s : σ) (ids : List ℕ) : σ × List ℕ × ℕ :=
  (List.range count).foldl
    (fun (s, ids, begin) iterator =>
      let tested := predicate s (ids.getD iterator 0)
      if tested.2 then (tested.1, swap ids begin iterator, begin + 1) else (tested.1, ids, begin))
    (s, ids, 0)

def largeStep (bucket : α → ℕ) (nextOffset : ℕ → ℕ) (state : Scatter α × List ℕ × ℕ) :
    Option ((Scatter α × List ℕ × ℕ) ⊕ (List α × List ℕ)) :=
  let (s, ids, unfinished) := state
  some <|
    if unfinished > 1 then .inl (partitionBucketIds (Scatter.scatterBucket bucket nextOffset) unfinished s ids)
    else .inr (s.records, ids)

/-- The offsets of `largeBucketSort`, where `offset` shares its memory with the count and
`nextOffset` is set for every bucket. -/
def partitionOffsets (counts : ℕ → ℕ) : (ℕ → ℕ) × (ℕ → ℕ) × ℕ :=
  (List.range 256).foldl
    (fun (offsets, nextOffsets, total) bucket =>
      if counts bucket ≠ 0 then
        (update offsets bucket total, update nextOffsets bucket (total + counts bucket),
          total + counts bucket)
      else (offsets, update nextOffsets bucket total, total))
    (counts, fun _ => 0, 0)

section Kernel

variable (S : ComparisonSort) (M : ComparisonMerge) (K : RadixSortRunSorterKernel α)

def sortBucket (sortNext : ℕ → List α → Option (List α)) (effectivePasses : ℕ) (range : List α) : Option (List α) :=
  if range.length ≤ 1 then some range
  else if range.length < comparisonFallbackCutoff then fullSort S M K range
  else sortNext effectivePasses range

def occurringBuckets (offset : ℕ) (range : List α) : (ℕ → ℕ) × List ℕ :=
  if K.completePrefixRadix then
    let occupancy := countOccupied K.uninitialized (bucketAt K offset) range
    (occupancy.counts, occupancy.buckets)
  else
    let counts := countBuckets (bucketAt K offset) range
    (fun bucket => counts.getD bucket 0, (List.range 256).filter fun bucket => counts.getD bucket 0 ≠ 0)

def consecutiveRanges (ends : ℕ → ℕ) : ℕ → List ℕ → List (ℕ × ℕ)
  | _, [] => []
  | startOffset, bucket :: remaining =>
    (startOffset, ends bucket) :: consecutiveRanges ends (ends bucket) remaining

/-- One radix pass in place, and the passes after it. -/
def cycleBucketSort (sortNext : ℕ → List α → Option (List α)) (offset effectivePasses : ℕ)
    (range : List α) : Option (List α) :=
  let (counts, remaining) := occurringBuckets K offset range
  let (offsets, ends, _) := bucketBounds K.uninitialized counts remaining
  let passes := nextPasses K effectivePasses remaining.length
  if exceedsPassLimit K passes then fullSort S M K range
  else do
    let records ← cyclePermute (bucketAt K offset) offsets ends range remaining
    if radixSortEndsAt K offset then some records
    else
      (consecutiveRanges ends 0 remaining).foldlM
        (fun records bounds => onRange (sortBucket S M K sortNext passes) records bounds.1 bounds.2) records

def partitionRange (nextOffset : ℕ → ℕ) (bucket : ℕ) : ℕ × ℕ :=
  (if bucket = 0 then 0 else nextOffset (bucket - 1), nextOffset bucket)

/-- One radix pass over partitions of a large range. -/
def largeBucketSort (sortNext : ℕ → List α → Option (List α)) (offset effectivePasses : ℕ)
    (range : List α) : Option (List α) :=
  let counts := countBuckets (bucketAt K offset) range
  let (offsets, nextOffset, _) := partitionOffsets fun bucket => counts.getD bucket 0
  let remaining := (List.range 256).filter fun bucket => counts.getD bucket 0 ≠ 0
  let passes := nextPasses K effectivePasses remaining.length
  if exceedsPassLimit K passes then fullSort S M K range
  else do
    let (records, ids) ← Loop.iterate (largeStep (bucketAt K offset) nextOffset)
      (range.length + remaining.length + 1) (⟨range, offsets⟩, remaining, remaining.length)
    if radixSortEndsAt K offset then some records
    else
      (ids.reverse.map (partitionRange nextOffset)).foldlM
        (fun records bounds => onRange (sortBucket S M K sortNext passes) records bounds.1 bounds.2) records

/-- `sortRadixByte`. The byte offset is a template parameter that grows to the limit; here
the bytes that are left decrease to zero. -/
def sortRadixByte : (bytesLeft effectivePasses : ℕ) → List α → Option (List α)
  | 0, _, range => finishRadixSort S M K range
  | bytesLeft + 1, effectivePasses, range =>
    let offset := K.radixByteLimit - (bytesLeft + 1)
    if byteIsSkippable K offset then sortRadixByte bytesLeft effectivePasses range
    else if !K.completePrefixRadix && singleRadixBucket K offset range then
      sortRadixByte bytesLeft effectivePasses range
    else if range.length < largeBucketCutoff then
      cycleBucketSort S M K (sortRadixByte bytesLeft) offset effectivePasses range
    else largeBucketSort S M K (sortRadixByte bytesLeft) offset effectivePasses range

def radixSort (range : List α) : Option (List α) :=
  if range.length < 2 then some range
  else if range.length < comparisonFallbackCutoff then fullSort S M K range
  else sortRadixByte S M K K.radixByteLimit 0 range

/-- Sorts a whole range. -/
def adaptiveSort (range : List α) : Option (List α) :=
  detectRunsAndSort M K.less (radixSort S M K) range

end Kernel

/-! ## The kernels of the key layouts -/

/-- The mask `adaptiveSort` builds from the skippable offsets. -/
def skippableMask (offsets : List ℕ) : BitVec 32 :=
  offsets.foldl (fun mask offset => mask ||| 1#32 <<< offset) 0#32

/-- `kRadixByteLimit` without the floating-point variants. -/
def radixByteLimit (kind : RadixSortKeyLayoutKind) (completePrefixRadix : Bool) : ℕ :=
  if completePrefixRadix then kind.inlineCapacity
  else if !kind.isVariable && !kind.hasPayload then kind.inlineCapacity
  else min kind.inlineCapacity 8

/-- The kernel `RadixSortRunSorter::sort` selects when no codec is passed. -/
def kernelFor (layout : RadixSortKeyLayout) (uninitialized : ℕ → ℕ) (skippableByteOffsets : List ℕ) :
    RadixSortRunSorterKernel (KeyRecord layout.kind) :=
  let complete := layout.kind.isVariable && layout.radixWidth == layout.kind.inlineCapacity
  let limit := radixByteLimit layout.kind complete
  { completePrefixRadix := complete
    radixByteLimit := limit
    requiresFullKeyFallback := layout.kind.isVariable || limit < layout.kind.inlineCapacity
    radixByte := fun offset record => record.encodedByte offset
    less := radixSortKeyLess layout.heapKeyOffset
    suffixLess := fun left right => compareSuffix left right layout.heapKeyOffset limit < 0
    skippableByteMask := skippableMask skippableByteOffsets
    uninitialized }

end Bolt.RadixSort
