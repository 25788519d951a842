import Bolt.Dwrf.ByteRleDecoding
import Bolt.Dwrf.ScatterBits

/-!
# Boolean run-length encoding

Booleans are packed eight to a byte, the first in the high bit, and the bytes are run-length
encoded. The decoder hands out bits with the first in the low bit and keeps what it does not
need of the last byte for the next call. Bits left over are put below the new ones by
shifting the output in place; with nulls the result is scattered in place.
-/

namespace Bolt.Dwrf

open Lib Lib.Chunks Lib.Spread Lib.BitMemory

structure BooleanRleEncoder extends ByteRleEncoder where
  bitsRemained : ℕ := 8
  current : Byte := 0

namespace BooleanRleEncoder

def writeByte (e : BooleanRleEncoder) : BooleanRleEncoder :=
  { toByteRleEncoder := e.toByteRleEncoder.write e.current, bitsRemained := 8, current := 0 }

def writeBool (e : BooleanRleEncoder) (val : Bool) : BooleanRleEncoder :=
  let bitsRemained := e.bitsRemained - 1
  let e := { e with bitsRemained, current := e.current ||| ((if val then 1#8 else 0#8) <<< bitsRemained) }
  if bitsRemained = 0 then e.writeByte else e

def addValues (e : BooleanRleEncoder) (valueAt : ℕ → Bool) (ranges : List ℕ) : (nulls : Option (ℕ → Bool)) → BooleanRleEncoder
  | some present => ranges.foldl (fun e position => if present position then e.writeBool (valueAt position) else e) e
  | none => ranges.foldl (fun e position => e.writeBool (valueAt position)) e

/-- What `add` makes of an array of bytes, or of none. -/
def byteValue (data : Option (ℕ → Byte)) (position : ℕ) : Bool := data.elim true fun data => data position != 0

/-- What `addBits` makes of bits or of a function, or of none. -/
def bitValue (data : Option (ℕ → Bool)) (invert : Bool) (position : ℕ) : Bool :=
  data.elim true fun data => invert != data position

def add (e : BooleanRleEncoder) (data : Option (ℕ → Byte)) (ranges : List ℕ) (nulls : Option (ℕ → Bool)) : BooleanRleEncoder :=
  e.addValues (byteValue data) ranges nulls

def addBits (e : BooleanRleEncoder) (data : Option (ℕ → Bool)) (ranges : List ℕ) (nulls : Option (ℕ → Bool)) (invert : Bool) :
    BooleanRleEncoder :=
  e.addValues (bitValue data invert) ranges nulls

def flush (e : BooleanRleEncoder) : BooleanRleEncoder :=
  let e := if e.bitsRemained ≠ 8 then e.writeByte else e
  { e with toByteRleEncoder := e.toByteRleEncoder.flush }

def recordPosition (e : BooleanRleEncoder) : (ℕ × ℕ) × ℕ := (e.toByteRleEncoder.recordPosition, 8 - e.bitsRemained)

end BooleanRleEncoder

structure BooleanRleDecoder extends ByteRleDecoder where
  remainingBits : ℕ := 0
  reversedLastByte : Byte := 0

/-- `bits::reverseBits` of one byte. -/
def reverseByte (byte : Byte) : Byte :=
  ((byte &&& 0x01#8) <<< 7) ||| ((byte &&& 0x02#8) <<< 5) ||| ((byte &&& 0x4#8) <<< 3) ||| ((byte &&& 0x08#8) <<< 1) |||
    ((byte &&& 0x10#8) >>> 1) ||| ((byte &&& 0x20#8) >>> 3) ||| ((byte &&& 0x40#8) >>> 5) ||| ((byte &&& 0x80#8) >>> 7)

def reverseBits (data : Memory) (numBytes : ℕ) : Memory := fun a => if a < numBytes then reverseByte (data a) else data a

/-- One round of the shifts in `next`, on the word of `k` bytes at byte `a`: the previous
bits become its low bits, and its high bits the previous ones. -/
def shiftWord (k remainingBits : ℕ) (s : Memory × Byte) (a : ℕ) : Memory × Byte :=
  let tmp := load k s.1 a
  (store k s.1 a (s.2.setWidth (8 * k) ||| (tmp <<< remainingBits)), (tmp >>> (8 * k - remainingBits)).setWidth 8)

namespace BooleanRleDecoder

def seekToRowGroup {bytes : List Byte} (stream : Seekable bytes) (d : BooleanRleDecoder) (position : (ℕ × ℕ) × ℕ) :
    Option BooleanRleDecoder :=
  let base := d.toByteRleDecoder.seekToRowGroup stream position.1
  let consumed := position.2
  if consumed ≤ 8 then
    some { d with toByteRleDecoder := { base with pendingSkip := 8 * base.pendingSkip + consumed }, remainingBits := 0 }
  else none

def skip (d : BooleanRleDecoder) (numValues : ℕ) : BooleanRleDecoder :=
  { d with toByteRleDecoder := d.toByteRleDecoder.skip numValues }

/-- `skipPending`. The byte decoder's `next` calls it again, with nothing left to skip. -/
def skipPending (d : BooleanRleDecoder) : Option BooleanRleDecoder :=
  let numValues := d.pendingSkip
  if numValues ≤ d.remainingBits then
    some { d with pendingSkip := 0, remainingBits := d.remainingBits - numValues }
  else do
    let numValues := numValues - d.remainingBits
    let base ← { d.toByteRleDecoder with pendingSkip := numValues / 8 }.skipPending
    let bitsToSkip := numValues % 8
    if bitsToSkip ≠ 0 then
      let (base, data) ← base.fetch (fun _ => d.reversedLastByte) 1 none
      return { toByteRleDecoder := base, remainingBits := 8 - bitsToSkip, reversedLastByte := reverseByte (data 0) }
    else return { d with toByteRleDecoder := base, remainingBits := 0 }

def shiftBits (remainingBits nonNulls : ℕ) (previousByte : Byte) (data : Memory) : Memory :=
  let nonNullDWords := nonNulls / 64
  let s := (List.range nonNullDWords).foldl (fun s i => shiftWord 8 remainingBits s (8 * i)) (data, previousByte)
  let nonNullOutputBytes := (nonNulls + 7) / 8
  ((List.range' (nonNullDWords * 8) (nonNullOutputBytes - nonNullDWords * 8)).foldl (shiftWord 1 remainingBits) s).1

/-- The part of `next` that puts `nonNulls` bits at the front of the output. -/
def readBits (d : BooleanRleDecoder) (data : Memory) (nonNulls : ℕ) : Option (BooleanRleDecoder × Memory) :=
  if d.remainingBits ≥ nonNulls then
    some ({ d with remainingBits := d.remainingBits - nonNulls },
      Function.update data 0 ((d.reversedLastByte >>> (8 - d.remainingBits)) &&& (0xff#8 >>> (8 - nonNulls))))
  else do
    let previousByte := if d.remainingBits > 0 then d.reversedLastByte >>> (8 - d.remainingBits) else 0
    let bytesRead := (nonNulls - d.remainingBits + 7) / 8
    let (base, data) ← d.toByteRleDecoder.fetch data bytesRead none
    let data := reverseBits data bytesRead
    let reversedLastByte := data (bytesRead - 1)
    let data := if d.remainingBits > 0 then shiftBits d.remainingBits nonNulls previousByte data else data
    return ({ toByteRleDecoder := base, remainingBits := bytesRead * 8 + d.remainingBits - nonNulls, reversedLastByte }, data)

/-- `next` for up to `2 ^ 31 - 1` values: the counts are `int32_t` there. -/
def next (hasBmi2 : Bool) (d : BooleanRleDecoder) (data : Memory) (numValues : ℕ) (nulls : Option (ℕ → Bool)) :
    Option (BooleanRleDecoder × Memory) := do
  let d ← d.skipPending
  let nonNulls := nulls.elim numValues (rank · numValues)
  let outputBytes := (numValues + 7) / 8
  if nonNulls = 0 then
    return (d, ByteRleDecoder.fill data 0 outputBytes 0)
  else
    let (d, data) ← d.readBits data nonNulls
    let data := if numValues > nonNulls then scatterBits hasBmi2 nonNulls numValues (presentIn nulls) data else data
    return (d, Function.update data (outputBytes - 1)
      (data (outputBytes - 1) &&& (0xff#8 >>> (outputBytes * 8 - numValues))))

end BooleanRleDecoder

end Bolt.Dwrf
