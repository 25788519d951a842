import Bolt.Lib.SignedInts
import Bolt.Lib.Sorting

/-!
# Window frames

The frame bounds of `bolt/exec/Window.cpp` and `WindowPartition::computePeerBuffers`. Rows of a
partition and frame bounds are `vector_size_t`, 32 bits wide; offsets are added in 64 bits. A
64-bit sum that overflows has no defined value: it is the error `overflow`.
-/

namespace Bolt.Exec

open Lib.SignedInts

/-- A sort key: `RowContainer::compare` on its column, in the key's direction and null order. -/
structure SortKey (ρ : Type) where
  compare : ρ → ρ → Ordering
  lawful : Std.TransCmp compare

def compareKeys {ρ : Type} : List (SortKey ρ) → ρ → ρ → Ordering
  | [], _, _ => .eq
  | key :: keys, lhs, rhs => (key.compare lhs rhs).then (compareKeys keys lhs rhs)

/-- `compareRowsWithSortKeys`. A row equals itself on every key, so one pointer given twice needs
no case of its own. -/
def compareRowsWithSortKeys {ρ : Type} (sortKeyInfo : List (SortKey ρ)) (lhs rhs : ρ) : Bool :=
  (compareKeys sortKeyInfo lhs rhs).isLT

inductive WindowType
  | range
  | rows
  deriving DecidableEq

inductive BoundType
  | unboundedPreceding
  | preceding
  | currentRow
  | following
  | unboundedFollowing

/-- A constant, which `createWindowFrame` has checked not to be negative, or the column of the
frame offsets, INTEGER or BIGINT. -/
inductive FrameChannelArg
  | constant (offset : Fin (2 ^ 63))
  | column (value : ℕ → Option (SignedInt 64))

structure WindowFrame where
  type : WindowType
  startType : BoundType
  endType : BoundType
  start : Option FrameChannelArg
  stop : Option FrameChannelArg

/-- A partition that the window build has sorted. How a k RANGE bound is searched is left to the
partition. -/
structure WindowPartition (ρ : Type) where
  sortKeyInfo : List (SortKey ρ)
  numRows : ℕ
  row : ℕ → ρ
  computeKRangeFrameBounds : (isStartBound isPreceding : Bool) → FrameChannelArg → (startRow : ℕ) →
    (rawPeerBuffer : ℕ → ℤ) → ℕ → ℤ
  numRows_lt : numRows < 2 ^ 31
  sorted : ∀ i j, i ≤ j → j < numRows → compareRowsWithSortKeys sortKeyInfo (row j) (row i) = false

inductive FrameError
  | user (message : String)
  | badOptionalAccess
  | overflow
  deriving DecidableEq

def int32Min : ℤ := -2 ^ 31

def int32Max : ℤ := 2 ^ 31 - 1

def toInt32 (x : ℤ) : ℤ := x.bmod (2 ^ 32)

def Fits64 (x : ℤ) : Prop := -2 ^ 63 ≤ x ∧ x < 2 ^ 63
  deriving Decidable

def offsetError : Option (SignedInt 64) → Option FrameError
  | none => some (.user "Window frame offset must not be null")
  | some offset =>
    if 0 ≤ offset.val then none
    else some (.user ("Window frame " ++ toString offset.val ++ " offset must not be negative"))

def storedBound (startValue : ℤ) : ℤ :=
  if startValue < int32Min then 0 else if int32Max < startValue then int32Max else startValue

def updateKRowsOffsetsColumn (isKPreceding : Bool) (value : ℕ → Option (SignedInt 64)) (startRow numRows : ℕ) :
    Except FrameError (ℕ → ℤ) :=
  match (List.range numRows).findSome? fun i => offsetError (value (startRow + i)) with
  | some error => .error error
  | none =>
    let startValue (i : ℕ) : ℤ :=
      (startRow + i : ℕ) + (if isKPreceding then -1 else 1) * (value (startRow + i)).elim 0 SignedInt.val
    if ∀ i < numRows, Fits64 (startValue i) then .ok fun i => storedBound (startValue i) else .error .overflow

/-- The bound of row `i` for a constant offset; `startValue` is that of the first row. -/
def constantBounds (isKPreceding : Bool) (startValue : ℤ) (numRows i : ℕ) : ℤ :=
  let iota := toInt32 (startValue + i)
  if isKPreceding then if startValue < int32Min then 0 else iota
  else
    let overflowStart := if int32Max < startValue then 0 else toInt32 (int32Max - startValue + 1)
    if 0 ≤ overflowStart ∧ overflowStart < numRows then if i < overflowStart then iota else int32Max else iota

def updateKRowsFrameBounds (isKPreceding : Bool) (startRow numRows : ℕ) : FrameChannelArg → Except FrameError (ℕ → ℤ)
  | .constant constantOffset =>
    let startValue : ℤ := startRow + if isKPreceding then -(constantOffset.val : ℤ) else constantOffset.val
    if Fits64 startValue then .ok (constantBounds isKPreceding startValue numRows) else .error .overflow
  | .column value => updateKRowsOffsetsColumn isKPreceding value startRow numRows

structure RowFrame where
  valid : Bool
  frameStart : ℤ
  frameEnd : ℤ
  deriving DecidableEq

/-- Clips a frame to the partition. -/
def computeValidFrame (lastRow frameStart frameEnd : ℤ) : RowFrame :=
  if frameStart ≤ frameEnd ∧ 0 ≤ frameEnd ∧ frameStart ≤ lastRow then
    ⟨true, max frameStart 0, min frameEnd lastRow⟩
  else ⟨false, frameStart, frameEnd⟩

/-- A call of `callApplyForPartitionRows`, with the peers that the call before it returned. -/
structure Chunk where
  startRow : ℕ
  numRows : ℕ
  prevPeers : ℕ × ℕ

namespace WindowPartition

variable {ρ : Type} (p : WindowPartition ρ)

def peerCompare (lhs rhs : ℕ) : Bool := compareRowsWithSortKeys p.sortKeyInfo (p.row lhs) (p.row rhs)

/-- The search for the row after the last peer; `count` rows are left in the partition. -/
def findPeerEnd (peerStart : ℕ) : (count peerEnd : ℕ) → ℕ
  | 0, peerEnd => peerEnd
  | count + 1, peerEnd => if p.peerCompare peerStart peerEnd then peerEnd else findPeerEnd peerStart count (peerEnd + 1)

/-- `peerStart` and `peerEnd` after `count` rounds of the loop of `computePeerBuffers`. -/
def peersAfter (start : ℕ) (prevPeers : ℕ × ℕ) : (count : ℕ) → ℕ × ℕ
  | 0 => prevPeers
  | count + 1 =>
    let peers := peersAfter start prevPeers count
    let row := start + count
    if row = 0 ∨ peers.2 ≤ row then (row, p.findPeerEnd row (p.numRows - row) row) else peers

/-- `rawPeerStarts` and `rawPeerEnds` of a chunk. -/
def peerBuffers (chunk : Chunk) (i : ℕ) : ℕ × ℕ :=
  let peers := p.peersAfter chunk.startRow chunk.prevPeers (i + 1)
  (peers.1, peers.2 - 1)

def chunksFrom : List ℕ → ℕ → ℕ × ℕ → List Chunk
  | [], _, _ => []
  | size :: sizes, startRow, prevPeers =>
    ⟨startRow, size, prevPeers⟩ :: chunksFrom sizes (startRow + size) (p.peersAfter startRow prevPeers size)

/-- One end of the frames of a chunk. -/
def updateFrameBounds (windowFrame : WindowFrame) (isStartBound : Bool) (chunk : Chunk) : Except FrameError (ℕ → ℤ) :=
  let rawPeerBuffer (i : ℕ) : ℤ := if isStartBound then (p.peerBuffers chunk i).1 else (p.peerBuffers chunk i).2
  let kBounds (isPreceding : Bool) : Except FrameError (ℕ → ℤ) :=
    match if isStartBound then windowFrame.start else windowFrame.stop, windowFrame.type with
    | none, _ => .error .badOptionalAccess
    | some frameArg, .rows => updateKRowsFrameBounds isPreceding chunk.startRow chunk.numRows frameArg
    | some frameArg, .range => .ok (p.computeKRangeFrameBounds isStartBound isPreceding frameArg chunk.startRow rawPeerBuffer)
  match if isStartBound then windowFrame.startType else windowFrame.endType, windowFrame.type with
  | .unboundedPreceding, _ => .ok fun _ => 0
  | .unboundedFollowing, _ => .ok fun _ => p.numRows - 1
  | .currentRow, .range => .ok rawPeerBuffer
  | .currentRow, .rows => .ok fun i => chunk.startRow + i
  | .preceding, _ => kBounds true
  | .following, _ => kBounds false

/-- The frames that `computePeerAndFrameBuffers` reports for the rows of a chunk. -/
def computeFrames (windowFrame : WindowFrame) (chunk : Chunk) : Except FrameError (ℕ → RowFrame) := do
  let starts ← p.updateFrameBounds windowFrame true chunk
  let ends ← p.updateFrameBounds windowFrame false chunk
  if windowFrame.start.isSome ∨ windowFrame.stop.isSome then
    return fun i => computeValidFrame (p.numRows - 1) (starts i) (ends i)
  else return fun i => ⟨true, starts i, ends i⟩

end WindowPartition

/-- A non-negative 64-bit offset, the same for all rows or given by row. -/
inductive Offset
  | constant (offset : Fin (2 ^ 63))
  | perRow (offset : ℕ → Fin (2 ^ 63))

def Offset.at : Offset → ℕ → ℤ
  | constant offset, _ => offset.val
  | perRow offset, row => (offset row).val

inductive Bound
  | unboundedPreceding
  | preceding (offset : Offset)
  | currentRow
  | following (offset : Offset)
  | unboundedFollowing

namespace Bound

def offset : Bound → Option Offset
  | preceding offset => some offset
  | following offset => some offset
  | _ => none

def type : Bound → BoundType
  | unboundedPreceding => .unboundedPreceding
  | preceding _ => .preceding
  | currentRow => .currentRow
  | following _ => .following
  | unboundedFollowing => .unboundedFollowing

end Bound

/-- A ROWS frame, or a RANGE frame without offsets. -/
structure Frame where
  type : WindowType
  start : Bound
  stop : Bound
  offset_eq_none : type = .range → start.offset = none ∧ stop.offset = none

def Offset.arg : Offset → FrameChannelArg
  | constant offset => .constant offset
  | perRow offset => .column fun row => some ⟨(offset row).val, by omega, by have := (offset row).isLt; omega⟩

def Frame.toWindowFrame (frame : Frame) : WindowFrame where
  type := frame.type
  startType := frame.start.type
  endType := frame.stop.type
  start := frame.start.offset.map Offset.arg
  stop := frame.stop.offset.map Offset.arg

namespace WindowPartition

variable {ρ : Type} (p : WindowPartition ρ)

def EqualKeys (i j : ℕ) : Prop := ∀ key ∈ p.sortKeyInfo, key.compare (p.row i) (p.row j) = .eq

def IsPeerGroup (row : ℕ) (peers : ℕ × ℕ) : Prop :=
  peers.2 < p.numRows ∧ ∀ i < p.numRows, (peers.1 ≤ i ∧ i ≤ peers.2) ↔ p.EqualKeys row i

/-- Where the bound of `row` lies, also outside of the partition; `peer` is the end of the row's
peer group on the side of the bound. -/
def position (type : WindowType) (row peer : ℕ) : Bound → ℤ
  | .unboundedPreceding => 0
  | .preceding offset => row - offset.at row
  | .currentRow => match type with
    | .rows => row
    | .range => peer
  | .following offset => row + offset.at row
  | .unboundedFollowing => p.numRows - 1

def frameRows (frame : Frame) (row : ℕ) (peers : ℕ × ℕ) : Set ℕ :=
  {i | i < p.numRows ∧ p.position frame.type row peers.1 frame.start ≤ i ∧
    i ≤ p.position frame.type row peers.2 frame.stop}

structure Cut where
  sizes : List ℕ
  sum_sizes : sizes.sum = p.numRows

def Cut.chunks (cut : p.Cut) : List Chunk := p.chunksFrom cut.sizes 0 (0, 0)

end WindowPartition

/-- The frame reported is that of the given rows: valid if there are any, and from the first of
them to the last. -/
def RowFrame.Reports (frame : RowFrame) (rows : Set ℕ) : Prop :=
  if frame.valid then
    ∃ first last : ℕ, frame.frameStart = first ∧ frame.frameEnd = last ∧ IsLeast rows first ∧ IsGreatest rows last
  else rows = ∅

/-- No 64-bit sum of the chunk overflows. -/
def Bound.Defined (chunk : Chunk) : Bound → Prop
  | .following (.constant offset) => chunk.startRow + offset.val < 2 ^ 63
  | .following (.perRow offset) => ∀ i < chunk.numRows, chunk.startRow + i + (offset (chunk.startRow + i)).val < 2 ^ 63
  | _ => True

/-- The bound of row `i` of the chunk is so far before the partition that row 0 is stored in its
place. For a constant offset the first row of the chunk decides. -/
def Bound.Saturates (chunk : Chunk) (i : ℕ) : Bound → Prop
  | .preceding (.constant offset) => (chunk.startRow : ℤ) - offset.val < int32Min
  | .preceding (.perRow offset) => ((chunk.startRow + i : ℕ) : ℤ) - (offset (chunk.startRow + i)).val < int32Min
  | _ => False

namespace WindowPartition

variable {ρ : Type} (p : WindowPartition ρ) (frame : Frame) (chunk : Chunk)

/-- The frame of row `i` of the chunk is reported right: without offsets the start bound must not be
after the end bound, with offsets row 0 must not be taken for an end bound far before it. -/
def RowExact (i : ℕ) (peers : ℕ × ℕ) : Prop :=
  let row := chunk.startRow + i
  let start := p.position frame.type row peers.1 frame.start
  if frame.start.offset = none ∧ frame.stop.offset = none then start ≤ p.position frame.type row peers.2 frame.stop
  else ¬(frame.stop.Saturates chunk i ∧ start ≤ 0)

/-- The bounds of the chunk are defined, and the frame of each of its rows is reported right. -/
def FramesExact : Prop :=
  frame.start.Defined chunk ∧ frame.stop.Defined chunk ∧
    ∀ i < chunk.numRows, ∀ peers, p.IsPeerGroup (chunk.startRow + i) peers → p.RowExact frame chunk i peers

end WindowPartition

end Bolt.Exec
