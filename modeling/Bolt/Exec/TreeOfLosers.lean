import Bolt.Lib.LoserTreeFlags
import Bolt.Lib.Merging
import Bolt.RadixSort.SpillMerge

/-!
# TreeOfLosers and MergeArray

`bolt/exec/TreeOfLosers.h`. A stream is the list of the elements it still has. Node numbers
wrap at the width `bits` of the index type; `none` stands for `kEmpty`, the largest of them.
The recursion over the tree takes fuel, since wrapped node numbers need not reach a leaf.
The caller pops the head of each stream it is given.
-/

namespace Bolt.Exec

open Lib Lib.Sorting LoserTree
open RadixSort (firstStreamOf)

variable {α : Type}

structure TreeOfLosers (α : Type) where
  bits : ℕ
  streams : List (List α)
  values : ℕ → Option ℕ
  equals : ℕ → Bool
  lastIndex : Option ℕ
  firstStream : ℕ

namespace TreeOfLosers

inductive CreateError
  | tooManyStreams
  | noStreams
  /-- The level sizes are 32-bit signed: `levelSize *= 2` leaves them. -/
  | levelOverflow
  deriving DecidableEq, Repr

def create (bits : ℕ) (streams : List (List α)) : Except CreateError (TreeOfLosers α) :=
  if ¬ streams.length < 2 ^ bits - 1 then .error .tooManyStreams
  else if ¬ 1 ≤ streams.length then .error .noStreams
  else if 2 ^ 30 < streams.length then .error .levelOverflow
  else
    .ok
      { bits := bits
        streams := streams
        values := fun _ => none
        equals := fun _ => false
        lastIndex := none
        firstStream := firstStreamOf streams.length }

def leftChild (bits node : ℕ) : ℕ := (node * 2 + 1) % 2 ^ bits

def rightChild (bits node : ℕ) : ℕ := (node * 2 + 2) % 2 ^ bits

variable (cmp : α → α → Ordering) (isNextEqual : List α → Bool) (tree : TreeOfLosers α)

def key (i : ℕ) : Option α := tree.streams[i]?.bind List.head?

def nextEqual (i : ℕ) : Bool := tree.streams[i]?.any isNextEqual

/-- The recursion of `first` and `firstWithEquals` with their leaf and their match. A leaf
beyond the streams is not in the vector. -/
def descend {ρ σ : Type} (leaf : ℕ → ρ) (play : ℕ → ρ → ρ → σ → ρ × σ) : ℕ → ℕ → σ → Option (ρ × σ)
  | 0, _, _ => none
  | fuel + 1, node, state =>
    if tree.firstStream ≤ node then
      if node - tree.firstStream < tree.streams.length then some (leaf (node - tree.firstStream), state) else none
    else
      match descend leaf play fuel (leftChild tree.bits node) state with
      | none => none
      | some left =>
        match descend leaf play fuel (rightChild tree.bits node) left.2 with
        | none => none
        | some right => some (play node left.1 right.1 right.2)

def firstMatch (node : ℕ) (left right : Option ℕ) (values : ℕ → Option ℕ) : Option ℕ × (ℕ → Option ℕ) :=
  match left, right with
  | none, right => (right, values)
  | some left, none => (some left, values)
  | some left, some right =>
    if beats (fun a b => (cmp a b).isLT) tree.key left right then
      (some left, Function.update values node (some right))
    else
      (some right, Function.update values node (some left))

def first (fuel node : ℕ) : Option (Option ℕ × (ℕ → Option ℕ)) :=
  tree.descend (LoserTree.live tree.key) (tree.firstMatch cmp) fuel node tree.values

def propagate (node : ℕ) (value : Option ℕ) : Option ℕ × (ℕ → Option ℕ) :=
  LoserTree.propagate (fun a b => (cmp a b).isLT) tree.key node value tree.values

def firstWithEquals (fuel node : ℕ) : Option ((Option ℕ × Bool) × Stored) :=
  tree.descend (liveFlagged tree.key (tree.nextEqual isNextEqual)) (firstMatchFlagged cmp tree.key) fuel
    node (tree.values, tree.equals)

def propagateWithEquals (node : ℕ) (value : Option ℕ × Bool) : (Option ℕ × Bool) × Stored :=
  propagateFlagged cmp tree.key node value (tree.values, tree.equals)

/-- The node whose match the stream that was returned last plays next. -/
def parentOf (last : ℕ) : ℕ := parent ((tree.firstStream + last) % 2 ^ tree.bits)

/-- The index of the stream with the lowest head. -/
def next (fuel : ℕ) : Option (Option ℕ × TreeOfLosers α) :=
  match tree.lastIndex with
  | none =>
    -- `values_` is empty: there is only one stream
    if tree.firstStream = 0 then some (LoserTree.live tree.key 0, tree)
    else (tree.first cmp fuel 0).map fun found => (found.1, { tree with values := found.2, lastIndex := found.1 })
  | some last =>
    let found := tree.propagate cmp (tree.parentOf last) (LoserTree.live tree.key last)
    some (found.1, { tree with values := found.2, lastIndex := found.1 })

/-- The index of the stream with the lowest head and whether an equal element is to come. -/
def nextWithEquals (fuel : ℕ) : Option ((Option ℕ × Bool) × TreeOfLosers α) :=
  match tree.lastIndex with
  | none =>
    if tree.firstStream = 0 then some (liveFlagged tree.key (tree.nextEqual isNextEqual) 0, tree)
    else (tree.firstWithEquals cmp isNextEqual fuel 0).map fun found =>
      (found.1, { tree with values := found.2.1, equals := found.2.2, lastIndex := found.1.1 })
  | some last =>
    let found := tree.propagateWithEquals cmp (tree.parentOf last)
      (liveFlagged tree.key (tree.nextEqual isNextEqual) last)
    some (found.1, { tree with values := found.2.1, equals := found.2.2, lastIndex := found.1.1 })

/-- Pops the head of a stream; there is none in a stream without data. -/
def pop (index : ℕ) : Option (α × TreeOfLosers α) :=
  match tree.streams[index]? with
  | some (head :: rest) => some (head, { tree with streams := tree.streams.set index rest })
  | _ => none

def pull (fuel : ℕ) (tree : TreeOfLosers α) : Option (Option α × TreeOfLosers α) :=
  match tree.next cmp fuel with
  | none => none
  | some (none, tree) => some (none, tree)
  | some (some index, tree) => (tree.pop index).map fun popped => (some popped.1, popped.2)

def pullWithEquals (fuel : ℕ) (tree : TreeOfLosers α) : Option (Option (α × Bool) × TreeOfLosers α) :=
  match tree.nextWithEquals cmp isNextEqual fuel with
  | none => none
  | some ((none, _), tree) => some (none, tree)
  | some ((some index, flag), tree) => (tree.pop index).map fun popped => (some (popped.1, flag), popped.2)

end TreeOfLosers

structure MergeArray (α : Type) where
  isFirst : Bool
  streams : List (List α)

namespace MergeArray

variable (cmp : α → α → Ordering)

def withData : List α → Option (α × List α)
  | [] => none
  | head :: rest => some (head, rest)

/-- The constructor; `boost::sort::pdqsort` is the sort. -/
def create (S : ComparisonSort) (streams : List (List α)) : MergeArray α where
  isFirst := true
  streams := (S.sort (fun left right => (cmp left.1 right.1).isLT) (streams.filterMap withData)).map
    fun stream => stream.1 :: stream.2

def streamLess (left right : List α) : Bool :=
  match left, right with
  | a :: _, b :: _ => (cmp a b).isLT
  | _, _ => false

/-- Whether the first stream is returned. The first stream moves behind those that
`std::lower_bound` finds to be less; there is no first stream in an empty vector. -/
def next (array : MergeArray α) : Option (Bool × MergeArray α) :=
  if array.isFirst then some (!array.streams.isEmpty, { array with isFirst := false })
  else
    match array.streams with
    | [] => none
    | [] :: rest => some (!rest.isEmpty, { array with streams := rest })
    | first :: rest =>
      some (true,
        { array with
          streams := rest.takeWhile (streamLess cmp · first) ++ first :: rest.dropWhile (streamLess cmp · first) })

/-- A call, and the pop of the head of the first stream where it is returned. -/
def pull (array : MergeArray α) : Option (Option α × MergeArray α) :=
  match array.next cmp with
  | none => none
  | some (false, array) => some (none, array)
  | some (true, array) =>
    match array.streams with
    | (head :: rest) :: streams => some (some head, { array with streams := rest :: streams })
    | _ => none

end MergeArray

end Bolt.Exec
