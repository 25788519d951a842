import Bolt.SparkMemory.TaskMemory

/-!
# The tree of memory targets

`TreeMemoryTargetNode`s form a tree over a `ConsumerTargetBridge`, which draws the memory
of a task from the execution pool. A node is named by its path: its own name, then those of
its ancestors; the empty path is the bridge.

What a spiller repays and reports is a function of its state and the tree. The order in
which a priority queue yields targets whose used bytes change meanwhile is a parameter.
-/

namespace Bolt.MemoryTarget

open ExecutionPool TaskMemory

abbrev Path := List String

/-- The pool, the nodes over it and what each of them has used. -/
structure Tree where
  system : System
  nodes : List Path := []
  capacity : Path → ℕ := fun _ => 0
  /-- `selfRecorder_.current()` of the nodes. -/
  current : Path → ℤ := fun _ => 0
  /-- `used_` of the bridge. -/
  used : ℤ := 0
  /-- `recorder_->current()` of the bridge. -/
  recorded : ℤ := 0
  /-- The borrows and, with a minus sign, the repays that have returned, with the node that
  each was called on. No function reads it. -/
  returned : List (Path × ℤ) := []

namespace Tree

def usedBytes (tree : Tree) : Path → ℤ
  | [] => tree.used
  | name :: parent => tree.current (name :: parent)

/-- `selfRecorder_.inc`. -/
def inc (tree : Tree) (path : Path) (bytes : ℤ) : Tree :=
  { tree with current := Function.update tree.current path (tree.current path + bytes) }

def children (tree : Tree) (path : Path) : List Path :=
  tree.nodes.filter fun node => node.tail = path ∧ node ≠ []

def returns (tree : Tree) (path : Path) (bytes : ℤ) : Tree :=
  { tree with returned := tree.returned ++ [(path, bytes)] }

end Tree

/-- `ConsumerTargetBridge::repay`, with `freeMemory` and `releaseExecutionMemory`. -/
def bridgeRepay (task : ℤ) (size : ℤ) (tree : Tree) : Except Failure (ℤ × Tree) :=
  if size = 0 then .ok (0, tree)
  else
    let toFree := min tree.used size
    if tree.used < toFree then .error .checkFailed
    else
      let released := tree.system.pool.releaseMemory toFree task
      let used := tree.used - released.1
      if used < 0 then .error .checkFailed
      else
        .ok (toFree,
          { tree with system := { tree.system with pool := released.2 }
                      used := used
                      recorded := tree.recorded - toFree })

/-- `TreeMemoryTargetNode::repay`, up to the bridge. -/
def repay (task : ℤ) : Path → ℤ → Tree → Except Failure (ℤ × Tree)
  | [], size, tree => bridgeRepay task size tree
  | name :: parent, size, tree => do
    let toFree := min (tree.current (name :: parent)) size
    let (freed, tree) ← repay task parent toFree tree
    return (freed, tree.inc (name :: parent) (-freed))

def repayOn (task : ℤ) (path : Path) (size : ℤ) (tree : Tree) : Except Failure (ℤ × Tree) := do
  let (freed, tree) ← repay task path size tree
  return (freed, tree.returns path (-freed))

inductive SpillerPhase where
  | shrink
  | spill
deriving DecidableEq

/-- A `Spiller`, with what a call of `spill` does: it repays on nodes of the tree, reports
how much it has spilled and changes the state of the spillers. -/
structure Spiller (σ : Type) where
  applicablePhases : SpillerPhase → Bool
  spill : σ → Tree → Path → ℤ → List (Path × ℕ) × ℤ × σ

/-- A task with its spillers. -/
structure Task (σ : Type) where
  taskAttemptId : ℤ
  getSpillers : σ → Path → List (Spiller σ)
  queueOrder : σ → Tree → List Path → List Path

section Spill

variable {σ α : Type}

abbrev World (σ : Type) := σ × Tree

/-- The loops of `spillTree`: each source in turn, while bytes remain to be spilled. -/
def drain (act : α → ℤ → World σ → Except Failure (ℤ × World σ)) :
    List α → (remainingBytes : ℤ) → World σ → Except Failure (ℤ × World σ)
  | [], remainingBytes, world => .ok (remainingBytes, world)
  | a :: rest, remainingBytes, world =>
    if remainingBytes ≤ 0 then .ok (remainingBytes, world)
    else do
      let (spilled, world) ← act a remainingBytes world
      drain act rest (remainingBytes - spilled) world

def repayAll (task : ℤ) : List (Path × ℕ) → Tree → Except Failure Tree
  | [], tree => .ok tree
  | (path, size) :: rest, tree =>
    if path = [] ∨ path ∈ tree.nodes then do
      let (_, tree) ← repayOn task path size tree
      repayAll task rest tree
    else repayAll task rest tree

def spillBy (task : Task σ) (node : Path) (spiller : Spiller σ) (bytes : ℤ) (world : World σ) :
    Except Failure (ℤ × World σ) := do
  let (repays, spilled, spillers) := spiller.spill world.1 world.2 node bytes
  let tree ← repayAll task.taskAttemptId repays world.2
  return (spilled, (spillers, tree))

/-- `spillTree` for one phase: the children first, then the spillers of the node. -/
def spillPhase (task : Task σ) (spillChild : Path → ℤ → World σ → Except Failure (ℤ × World σ)) (node : Path)
    (phase : SpillerPhase) (bytes : ℤ) (world : World σ) : Except Failure (ℤ × World σ) := do
  let children := task.queueOrder world.1 world.2 (world.2.children node)
  let (remainingBytes, world) ← drain spillChild children bytes world
  let applicableSpillers := (task.getSpillers world.1 node).filter (·.applicablePhases phase)
  let (remainingBytes, world) ← drain (spillBy task node) applicableSpillers remainingBytes world
  return (bytes - remainingBytes, world)

/-- `spillTree` for the nodes of so many levels. -/
def spillTree (task : Task σ) : (levels : ℕ) → Path → ℤ → World σ → Except Failure (ℤ × World σ)
  | 0, _, _, world => .ok (0, world)
  | levels + 1, node, bytes, world => do
    let (remainingBytes, world) ← drain (spillPhase task (spillTree task levels) node) [.shrink, .spill] bytes world
    return (bytes - remainingBytes, world)

/-- `ConsumerTargetBridge::spill`. An asynchronous preload thread does not spill. -/
def bridgeSpill (task : Task σ) (async : Bool) (bytes : ℤ) (world : World σ) : Except Failure (ℤ × World σ) :=
  if async then .ok (0, world)
  else spillTree task ((world.2.nodes.map List.length).foldr max 0 + 1) [] bytes world

end Spill

section Borrow

variable {σ : Type}

/-- The thread that borrows, and what happens in the pool while it does: one entry for each
acquisition of the call. -/
structure Thread where
  /-- `isAsyncPreloadThread()`. -/
  async : Bool := false
  /-- An asynchronous preload thread could not lock a root node within a second. -/
  rootBusy : Bool := false
  acquisitions : List (QuotaAnswer × List Event) := []

/-- A call of `ExecutionMemoryPool::acquireMemory` by the task. -/
def acquireFromPool (task : Task σ) (thread : Thread) (numBytes : ℤ) (pooled : QuotaAnswer × List Event)
    (world : World σ) : Except Failure (ℤ × World σ) := do
  let call : AcquireCall := { numBytes := numBytes, taskAttemptId := task.taskAttemptId, async := thread.async }
  let (got, system) ← acquireMemory call pooled.1 pooled.2 world.2.system
  return (got, (world.1, { world.2 with system := system }))

/-- The loop of `acquireExecutionMemory`. -/
def acquireMore (task : Task σ) (thread : Thread) (required : ℤ) :
    List (QuotaAnswer × List Event) → (got : ℤ) → World σ → Except Failure (ℤ × World σ)
  | acquisitions, got, world =>
    if required ≤ got then .ok (got, world)
    else do
      let stillNeed := required - got
      let (mustReturn, system) ← getOveragedMemoryForTask task.taskAttemptId world.2.system
      let (released, world) ←
        bridgeSpill task thread.async (stillNeed + mustReturn) (world.1, { world.2 with system := system })
      if 0 < released then
        match acquisitions with
        | [] => .error .notReturned
        | pooled :: acquisitions =>
          let (more, world) ← acquireFromPool task thread stillNeed pooled world
          acquireMore task thread required acquisitions (got + more) world
      else return (got, world)

/-- Acquires from the pool, spilling the consumers of the task if that is not enough. -/
def acquireExecutionMemory (task : Task σ) (thread : Thread) (required : ℤ) (world : World σ) :
    Except Failure (ℤ × World σ) :=
  if required < 0 then .error .checkFailed
  else
    match thread.acquisitions with
    | [] => .error .notReturned
    | pooled :: acquisitions => do
      let (got, world) ← acquireFromPool task thread required pooled world
      acquireMore task thread required acquisitions got world

/-- `ConsumerTargetBridge::borrow`, with `acquireMemory`. -/
def bridgeBorrow (task : Task σ) (thread : Thread) (size : ℤ) (world : World σ) : Except Failure (ℤ × World σ) :=
  if size = 0 then .ok (0, world)
  else do
    let (acquired, world) ← acquireExecutionMemory task thread size world
    return (acquired,
      (world.1, { world.2 with used := world.2.used + acquired, recorded := world.2.recorded + acquired }))

def namesRoot (name : String) : Bool := decide ("root".toList <:+: name.toList)

/-- `TreeMemoryTargetNode::borrow`, up to the bridge. -/
def borrow (task : Task σ) (thread : Thread) : Path → ℤ → World σ → Except Failure (ℤ × World σ)
  | [], size, world => bridgeBorrow task thread size world
  | name :: parent, size, world =>
    if thread.async && namesRoot name && thread.rootBusy then .ok (0, world)
    else do
      let freeBytes := world.2.capacity (name :: parent) - world.2.current (name :: parent)
      let (granted, world) ← borrow task thread parent (min freeBytes size) world
      return (granted, (world.1, world.2.inc (name :: parent) granted))

def borrowOn (task : Task σ) (thread : Thread) (path : Path) (size : ℤ) (world : World σ) :
    Except Failure (ℤ × World σ) := do
  let (granted, world) ← borrow task thread path size world
  return (granted, (world.1, world.2.returns path granted))

/-- `OverAcquireMemoryTarget::borrow`; `expected` is the part of the major size that the
ratio asks for. -/
def overAcquireBorrow (task : Task σ) (thread overThread : Thread) (expected : ℤ → ℤ) (target overTarget : Path) (size : ℤ)
    (world : World σ) : Except Failure (ℤ × World σ) :=
  if size = 0 then .error .checkFailed
  else do
    let (granted, world) ← borrowOn task thread target size world
    let diff := expected (world.2.usedBytes target) - world.2.usedBytes overTarget
    if 0 ≤ diff then
      let (_, world) ← borrowOn task overThread overTarget diff world
      return (granted, world)
    else return (granted, world)

def overAcquireRepay (task : Task σ) (target overTarget : Path) (size : ℤ) (world : World σ) :
    Except Failure (ℤ × World σ) :=
  if size = 0 then .error .checkFailed
  else do
    let (freed, tree) ← repayOn task.taskAttemptId target size world.2
    let overAcquired := tree.usedBytes overTarget
    let (freedOverAcquired, tree) ← repayOn task.taskAttemptId overTarget overAcquired tree
    if freedOverAcquired ≠ overAcquired then .error .checkFailed
    else if tree.usedBytes overTarget ≠ 0 then .error .checkFailed
    else return (freed, (world.1, tree))

end Borrow

/-- The calls on a tree, and the steps of other tasks in between. -/
inductive Call where
  | newChild (parent : Path) (name : String) (capacity : ℕ)
  | borrow (path : Path) (size : ℤ) (thread : Thread)
  | repay (path : Path) (size : ℕ)
  | overAcquireBorrow (target overTarget : Path) (size : ℤ) (expected : ℤ → ℤ) (thread overThread : Thread)
  | overAcquireRepay (target overTarget : Path) (size : ℕ)
  | other (s : Step)

/-- There is a pointer to the node. -/
def Tree.Exists (tree : Tree) (path : Path) : Prop := path = [] ∨ path ∈ tree.nodes

instance (tree : Tree) (path : Path) : Decidable (tree.Exists path) := inferInstanceAs (Decidable (_ ∨ _))

def newChild (parent : Path) (name : String) (capacity : ℕ) (tree : Tree) : Except Failure Tree :=
  if name :: parent ∈ tree.nodes then .error .checkFailed
  else
    .ok { tree with nodes := tree.nodes ++ [name :: parent]
                    capacity := Function.update tree.capacity (name :: parent) capacity }

def call {σ : Type} (task : Task σ) (world : World σ) : Call → Except Failure (ℤ × World σ)
  | .newChild parent name capacity =>
    if world.2.Exists parent then do
      let tree ← newChild parent name capacity world.2
      return (0, (world.1, tree))
    else .ok (0, world)
  | .borrow path size thread =>
    if world.2.Exists path then borrowOn task thread path size world else .ok (0, world)
  | .repay path size =>
    if world.2.Exists path then do
      let (freed, tree) ← repayOn task.taskAttemptId path size world.2
      return (freed, (world.1, tree))
    else .ok (0, world)
  | .overAcquireBorrow target overTarget size expected thread overThread =>
    if world.2.Exists target ∧ world.2.Exists overTarget then
      overAcquireBorrow task thread overThread expected target overTarget size world
    else .ok (0, world)
  | .overAcquireRepay target overTarget size =>
    if world.2.Exists target ∧ world.2.Exists overTarget then overAcquireRepay task target overTarget size world
    else .ok (0, world)
  | .other s =>
    .ok (0, (world.1, { world.2 with system := otherStep task.taskAttemptId world.2.system s }))

def runCalls {σ : Type} (task : Task σ) : List Call → World σ → Except Failure (World σ)
  | [], world => .ok world
  | c :: calls, world => do
    let (_, world) ← call task world c
    runCalls task calls world

end Bolt.MemoryTarget
