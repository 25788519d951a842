import Bolt.Lib.Chunks
import Bolt.Lib.Spread

/-!
# Byte run-length encoding

Runs of three to 130 equal bytes are a count and the byte, stretches of other bytes are
a negative count and the bytes. A position is the length of what the encoder has written and
the number of values it holds back. The input stream of the decoder is a source of chunks; a
read past its end is the error of `nextBuffer`.
-/

namespace Bolt.Dwrf

open Lib Lib.Chunks Lib.Spread

abbrev Byte := BitVec 8

def minimumRepeat : ℕ := 3

def maximumRepeat : ℕ := 127 + minimumRepeat

def maxLiteralSize : ℕ := 128

/-- The bytes written and the run or literals held back. -/
structure ByteRleEncoder where
  output : List Byte := []
  literals : ℕ → Byte := fun _ => 0
  numLiterals : ℕ := 0
  repeated : Bool := false
  tailRunLength : ℕ := 0

namespace ByteRleEncoder

/-- The header of a run: `static_cast<char>` of its signed count. -/
def header (count : ℤ) : Byte := BitVec.ofInt 8 count

def writeValues (e : ByteRleEncoder) : ByteRleEncoder :=
  if e.numLiterals ≠ 0 then
    { e with
      output := e.output ++
        if e.repeated then [header (e.numLiterals - minimumRepeat), e.literals 0]
        else header (-e.numLiterals) :: (List.range e.numLiterals).map e.literals
      repeated := false
      tailRunLength := 0
      numLiterals := 0 }
  else e

/-- `literals[numLiterals++] = value` -/
def push (e : ByteRleEncoder) (value : Byte) : ByteRleEncoder :=
  { e with literals := Function.update e.literals e.numLiterals value, numLiterals := e.numLiterals + 1 }

/-- `write` outside a run of equal values, with the new length of the tail. -/
def writeLiteral (e : ByteRleEncoder) (value : Byte) (tailRunLength : ℕ) : ByteRleEncoder :=
  let e := { e with tailRunLength }
  if tailRunLength = minimumRepeat then
    let e :=
      if e.numLiterals + 1 > minimumRepeat then
        let e := { e with numLiterals := e.numLiterals - (minimumRepeat - 1) }.writeValues
        { e with literals := Function.update e.literals 0 value }
      else e
    { e with repeated := true, numLiterals := minimumRepeat }
  else
    let e := e.push value
    if e.numLiterals = maxLiteralSize then e.writeValues else e

def write (e : ByteRleEncoder) (value : Byte) : ByteRleEncoder :=
  if e.numLiterals = 0 then { e.push value with tailRunLength := 1 }
  else if e.repeated then
    if value = e.literals 0 then
      if e.numLiterals + 1 = maximumRepeat then { e with numLiterals := e.numLiterals + 1 }.writeValues
      else { e with numLiterals := e.numLiterals + 1 }
    else { e.writeValues.push value with tailRunLength := 1 }
  else e.writeLiteral value (if value = e.literals (e.numLiterals - 1) then e.tailRunLength + 1 else 1)

/-- `add`, of an array or of a function: the present positions of the ranges are written. -/
def add (e : ByteRleEncoder) (valueAt : ℕ → Byte) (ranges : List ℕ) : (nulls : Option (ℕ → Bool)) → ByteRleEncoder
  | some present => ranges.foldl (fun e position => if present position then e.write (valueAt position) else e) e
  | none => ranges.foldl (fun e position => e.write (valueAt position)) e

/-- `flush`: the bytes of the stream are complete. -/
def flush (e : ByteRleEncoder) : ByteRleEncoder := e.writeValues

def recordPosition (e : ByteRleEncoder) : ℕ × ℕ := (e.output.length, e.numLiterals)

end ByteRleEncoder

/-- The input and what is left of the current run. -/
structure ByteRleDecoder where
  input : Source Byte
  remainingValues : ℕ := 0
  value : Byte := 0
  repeating : Bool := false
  pendingSkip : ℕ := 0

namespace ByteRleDecoder

def readHeader (d : ByteRleDecoder) : Option ByteRleDecoder := do
  let (ch, input) ← d.input.read
  if ch.toInt < 0 then
    return { d with input, remainingValues := (-ch.toInt).toNat, repeating := false }
  else
    let (value, input) ← input.read
    return { d with input, value, remainingValues := ch.toInt.toNat + minimumRepeat, repeating := true }

def ready (d : ByteRleDecoder) : Option ByteRleDecoder :=
  if d.remainingValues = 0 then d.readHeader else some d

def seekToRowGroup {bytes : List Byte} (stream : Seekable bytes) (d : ByteRleDecoder) (position : ℕ × ℕ) : ByteRleDecoder :=
  { d with input := stream.seek position.1, remainingValues := 0, pendingSkip := position.2 }

def skip (d : ByteRleDecoder) (numValues : ℕ) : ByteRleDecoder := { d with pendingSkip := d.pendingSkip + numValues }

def pass (d : ByteRleDecoder) (count : ℕ) : ByteRleDecoder :=
  { d with
    remainingValues := d.remainingValues - count
    input := if d.repeating then d.input else d.input.skip count }

/-- The loop of `skipPending`: every round passes over at least one value. -/
def skipValues : (fuel numValues : ℕ) → ByteRleDecoder → Option ByteRleDecoder
  | _, 0, d => some d
  | 0, _ + 1, _ => none
  | fuel + 1, numValues + 1, d => do
    let d ← d.ready
    let count := min (numValues + 1) d.remainingValues
    skipValues fuel (numValues + 1 - count) (d.pass count)

def skipPending (d : ByteRleDecoder) : Option ByteRleDecoder :=
  skipValues d.pendingSkip d.pendingSkip { d with pendingSkip := 0 }

def skipNulls (nulls : Option (ℕ → Bool)) (numValues : ℕ) : (fuel position : ℕ) → ℕ
  | 0, position => position
  | fuel + 1, position =>
    match nulls with
    | none => position
    | some present =>
      if position < numValues ∧ present position = false then skipNulls nulls numValues fuel (position + 1) else position

/-- `memset` -/
def fill (data : ℕ → Byte) (position count : ℕ) (value : Byte) : ℕ → Byte := fun i =>
  if position ≤ i ∧ i < position + count then value else data i

/-- `std::copy` -/
def place (data : ℕ → Byte) (position : ℕ) (bytes : List Byte) : ℕ → Byte := fun i =>
  if position ≤ i ∧ i < position + bytes.length then bytes.getD (i - position) 0 else data i

/-- The loops over a run with nulls: the input, the data and the number of values
consumed after `count` positions. -/
def scatterRun (read : Source Byte → Option (Byte × Source Byte)) (present : ℕ → Bool) :
    (count position : ℕ) → Source Byte → (ℕ → Byte) → (consumed : ℕ) → Option (Source Byte × (ℕ → Byte) × ℕ)
  | 0, _, input, data, consumed => some (input, data, consumed)
  | count + 1, position, input, data, consumed =>
    if present position then do
      let (value, input) ← read input
      scatterRun read present count (position + 1) input (Function.update data position value) (consumed + 1)
    else scatterRun read present count (position + 1) input data consumed

/-- The part of `next` that reads `count` positions out of the current run. -/
def readRun (d : ByteRleDecoder) (nulls : Option (ℕ → Bool)) (data : ℕ → Byte) (position count : ℕ) :
    Option (Source Byte × (ℕ → Byte) × ℕ) :=
  if d.repeating then
    match nulls with
    | some present => scatterRun (fun input => some (d.value, input)) present count position d.input data 0
    | none => some (d.input, fill data position count d.value, count)
  else
    match nulls with
    | some present => scatterRun Source.read present count position d.input data 0
    | none => do
      let (bytes, input) ← d.input.readMany count count
      return (input, place data position bytes, count)

/-- The loop of `next`: every round reads at least one position. -/
def readValues (nulls : Option (ℕ → Bool)) (numValues : ℕ) :
    (fuel position : ℕ) → ByteRleDecoder → (ℕ → Byte) → Option (ByteRleDecoder × (ℕ → Byte))
  | 0, position, d, data => if position < numValues then none else some (d, data)
  | fuel + 1, position, d, data =>
    if position < numValues then do
      let d ← d.ready
      let count := min (numValues - position) d.remainingValues
      let (input, data, consumed) ← d.readRun nulls data position count
      readValues nulls numValues fuel (skipNulls nulls numValues numValues (position + count))
        { d with input, remainingValues := d.remainingValues - consumed } data
    else some (d, data)

/-- `next` after its `skipPending`. -/
def fetch (d : ByteRleDecoder) (data : ℕ → Byte) (numValues : ℕ) (nulls : Option (ℕ → Bool)) :
    Option (ByteRleDecoder × (ℕ → Byte)) :=
  readValues nulls numValues numValues (skipNulls nulls numValues numValues 0) d data

def next (d : ByteRleDecoder) (data : ℕ → Byte) (numValues : ℕ) (nulls : Option (ℕ → Bool)) :
    Option (ByteRleDecoder × (ℕ → Byte)) := do
  let d ← d.skipPending
  d.fetch data numValues nulls

end ByteRleDecoder

end Bolt.Dwrf
