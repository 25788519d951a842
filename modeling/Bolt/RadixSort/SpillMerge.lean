import Mathlib.Algebra.Group.Nat.Defs
import Bolt.Lib.LoserTree

/-!
# The merger of sorted runs

A stream over a run in memory keeps all its rows; one over a spilled run has the rows of one
block in its buffer, which the next block replaces. `collectRows` collects pointers to rows
and hands them to `flushRows` in segments, at the latest before a buffer is replaced. The
next stream is chosen directly for up to two streams, and by a loser tree for more.
-/

namespace Bolt.RadixSort

open Lib

inductive MergeError where
  | tooManyStreams
  | exhausted
  | noMemoryStream
  | memoryNotEmpty
  | replacementPending
  | noFiles
  /-- A stream that was reset is used. -/
  | resetStream
  /-- A row is flushed after the buffer that holds it was replaced. -/
  | staleRow
deriving DecidableEq

/-- `RadixSortMergeStream`: the rows of the buffer from the current one on, the blocks that
follow, none of them empty, and how often the buffer was replaced. -/
structure MergeStream (R : Type) where
  inMemory : Bool
  current : List R
  later : List (List R)
  generation : ℕ
  later_ne : ∀ block ∈ later, block ≠ []

namespace MergeStream

variable {R : Type} (stream : MergeStream R)

/-- `key`: the current row, if there is one. -/
def key : Option R := stream.current.head?

def rows : List R := stream.current ++ stream.later.flatten

/-- `tryAdvance`: not over the end of a block that the next one replaces. -/
def tryAdvance : Option (MergeStream R) :=
  if stream.inMemory || 1 < stream.current.length then
    some { stream with current := stream.current.tail }
  else
    none

def loadBatch : MergeStream R :=
  match h : stream.later with
  | [] => { stream with current := [], later := [], later_ne := by simp, generation := stream.generation + 1 }
  | block :: blocks =>
    { stream with
      current := block
      later := blocks
      later_ne := fun other hmem => stream.later_ne other (h ▸ List.mem_cons_of_mem block hmem)
      generation := stream.generation + 1 }

def advanceAfterFlush : MergeStream R := stream.loadBatch

/-- A stream over the blocks of spilled files, with the first block loaded. -/
def ofFiles (files : List (List (List R))) (h : ∀ block ∈ files.flatten, block ≠ []) : MergeStream R :=
  loadBatch ⟨false, [], files.flatten, 0, h⟩

end MergeStream

/-- A row pointer: the stream and the buffer it points into, and the row that is there. -/
structure CollectedRow (R : Type) where
  stream : ℕ
  generation : ℕ
  record : R

/-- `kEmpty`, the largest number of streams. -/
def kMaxStreams : ℕ := 65535

/-- `RadixSortMerger`. An empty entry of the loser tree is `none`. A pending replacement
stands for the stream at its index, which was reset. -/
structure Merger (R : Type) where
  streams : List (MergeStream R)
  memoryIndex : Option ℕ
  pending : Option (ℕ × MergeStream R)
  firstStream : ℕ
  losers : ℕ → Option ℕ
  lastIndex : Option ℕ

def nextPowerOfTwo (size : ℕ) : ℕ :=
  if size = 0 then 0
  else if 2 ^ size.log2 = size then size
  else 2 * 2 ^ size.log2

/-- The loop of `resetSelection` over the levels above the last one. -/
def treeLevels (numStreams size levelSize : ℕ) : ℕ × ℕ :=
  if levelSize < numStreams ∧ 0 < levelSize then treeLevels numStreams (size + levelSize) (levelSize * 2)
  else (size, levelSize)
termination_by numStreams - levelSize

/-- The number of inner nodes that `resetSelection` computes. -/
def firstStreamOf (numStreams : ℕ) : ℕ :=
  let (size, levelSize) := treeLevels numStreams 0 1
  if numStreams = nextPowerOfTwo numStreams then size
  else
    let secondLastSize := levelSize / 2
    let overflow := numStreams - secondLastSize
    (size - secondLastSize) + overflow

namespace Merger

variable {R : Type} (less : R → R → Bool) (merger : Merger R)

def resetSelection : Except MergeError (Merger R) :=
  if kMaxStreams < merger.streams.length then
    .error .tooManyStreams
  else if merger.streams.length ≤ 2 then
    .ok { merger with firstStream := 0, losers := fun _ => none, lastIndex := none }
  else
    .ok { merger with
      firstStream := firstStreamOf merger.streams.length
      losers := fun _ => none
      lastIndex := none }

def create (streams : List (MergeStream R)) (memoryIndex : Option ℕ) : Except MergeError (Merger R) :=
  if memoryIndex.any fun index => streams.length ≤ index then
    .error .noMemoryStream
  else
    resetSelection ⟨streams, memoryIndex, none, 0, fun _ => none, none⟩

def keyAt (index : ℕ) : Option R := merger.streams[index]?.bind MergeStream.key

/-- The only stream, in `collectSingleStreamRows`. -/
def nextSingleStream : Except MergeError (ℕ × Merger R) :=
  match merger.keyAt 0 with
  | none => .error .exhausted
  | some _ => .ok (0, merger)

/-- The choice of `collectTwoWayRows`. -/
def nextTwoWayStream : Except MergeError (ℕ × Merger R) :=
  match merger.keyAt 0, merger.keyAt 1 with
  | none, none => .error .exhausted
  | some _, none => .ok (0, merger)
  | none, some _ => .ok (1, merger)
  | some left, some right => .ok (if less left right then 0 else 1, merger)

def nextLoserTreeStream : Option ℕ × Merger R :=
  let played :=
    match merger.lastIndex with
    | none => LoserTree.first less merger.keyAt merger.firstStream 0 merger.losers
    | some last =>
      LoserTree.propagate less merger.keyAt (LoserTree.parent (merger.firstStream + last)) (LoserTree.live merger.keyAt last)
        merger.losers
  (played.1, { merger with losers := played.2, lastIndex := played.1 })

/-- The choice of `collectLoserTreeRows`. -/
def nextOfLoserTree : Except MergeError (ℕ × Merger R) :=
  match merger.nextLoserTreeStream less with
  | (none, _) => .error .exhausted
  | (some index, merger) => .ok (index, merger)

/-- Reads the collected rows, none of which may be stale. -/
def flushRows (segment : List (CollectedRow R)) : Except MergeError (List R) :=
  if segment.all fun row => (merger.streams[row.stream]?.map MergeStream.generation) == some row.generation then
    .ok (segment.map CollectedRow.record)
  else
    .error .staleRow

/-- The stream goes to its next row. At the end of a block the segment is flushed first. -/
def advance (index : ℕ) (stream : MergeStream R) (segment : List (CollectedRow R)) :
    Except MergeError (Merger R × List (CollectedRow R) × List R) :=
  match stream.tryAdvance with
  | some next => .ok ({ merger with streams := merger.streams.set index next }, segment, [])
  | none => do
    let flushed ← merger.flushRows segment
    return ({ merger with streams := merger.streams.set index stream.advanceAfterFlush }, [], flushed)

/-- The loop that the three ways of collecting rows share: the merger, and the rows passed to
`flushRows`. -/
def collectLoop (next : Merger R → Except MergeError (ℕ × Merger R)) :
    ℕ → Merger R → List (CollectedRow R) → Except MergeError (Merger R × List R)
  | 0, merger, segment => do
    let flushed ← if segment = [] then pure [] else merger.flushRows segment
    return (merger, flushed)
  | count + 1, merger, segment => do
    let (index, merger) ← next merger
    match merger.streams[index]? with
    | none => throw .resetStream
    | some stream =>
      match stream.key with
      | none => throw .exhausted
      | some record =>
        let (merger, segment, flushed) ← merger.advance index stream (segment ++ [⟨index, stream.generation, record⟩])
        let (merger, rows) ← collectLoop next count merger segment
        return (merger, flushed ++ rows)

def collectSingleStreamRows (count : ℕ) : Except MergeError (Merger R × List R) := collectLoop nextSingleStream count merger []

def collectTwoWayRows (count : ℕ) : Except MergeError (Merger R × List R) := collectLoop (nextTwoWayStream less) count merger []

def collectLoserTreeRows (count : ℕ) : Except MergeError (Merger R × List R) := collectLoop (nextOfLoserTree less) count merger []

/-- The next rows of the merge, up to `count`. -/
def collectRows (count : ℕ) : Except MergeError (Merger R × List R) :=
  if count = 0 then
    .ok (merger, [])
  else if merger.pending.isSome then
    .error .resetStream
  else if merger.streams.length = 0 then
    .error .exhausted
  else if merger.streams.length = 1 then
    merger.collectSingleStreamRows count
  else if merger.streams.length = 2 then
    merger.collectTwoWayRows less count
  else
    merger.collectLoserTreeRows less count

/-! ## The stream over the run in memory -/

/-- The files that are to replace the stream in memory. -/
def replaceMemory (files : List (List (List R))) (h : ∀ block ∈ files.flatten, block ≠ []) : Except MergeError (Merger R) :=
  if merger.pending.isSome then
    .error .replacementPending
  else
    match merger.memoryIndex with
    | none => .error .noMemoryStream
    | some index =>
      if files = [] then
        .error .noFiles
      else
        .ok { merger with memoryIndex := none, pending := some (index, MergeStream.ofFiles files h) }

def finishMemoryReplacement : Except MergeError (Merger R) :=
  match merger.pending with
  | none => .ok merger
  | some (index, stream) => resetSelection { merger with streams := merger.streams.set index stream, pending := none }

def removeMemory : Except MergeError (Merger R) :=
  match merger.memoryIndex with
  | none => .error .noMemoryStream
  | some index =>
    if (merger.keyAt index).isSome then
      .error .memoryNotEmpty
    else
      resetSelection { merger with streams := merger.streams.eraseIdx index, memoryIndex := none }

end Merger

end Bolt.RadixSort
