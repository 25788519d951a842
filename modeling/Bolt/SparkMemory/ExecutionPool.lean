import Bolt.Lib.Ledgers
import Bolt.Lib.Runs

/-!
# The Spark execution memory pool

`ExecutionMemoryPool` shares a pool between the active tasks: a task may hold up to one
n-th of it and waits, if need be, until it can hold half of that. The lock is given up only
by a wait, so the steps are one pass of the loop of an acquisition, the timeout of a waiting
call, and a release. What `triggerDynamicMemoryQuotaManager` decides is an input of a pass.
-/

namespace Bolt.ExecutionPool

open Lib.Ledgers

/-- `ExecutionMemoryPool`, with the fields of `DynamicMemoryQuotaManagerOption` that
acquisitions read. An empty `poolSize_` counts as zero. -/
structure Pool where
  poolSize : Option ℤ := none
  poolExtendSize : Option ℤ := none
  memoryForTask : Ledger ℤ := Ledger.empty
  memIncreaseSize : ℤ := 0
  dynamicMemoryQuotaManagerDisableCounts : Ledger ℤ := Ledger.empty
  borrowFromRssWatermarkBytes : ℤ → ℤ := fun _ => 0
  enable : Bool := false
  sampleSize : ℤ := 0
  minMemoryMaxWaitMs : ℤ := 300000

namespace Pool

def internalMemoryUsed (pool : Pool) : ℤ := pool.memoryForTask.total

def internalPoolSize (pool : Pool) : ℤ := pool.poolSize.getD 0 + pool.poolExtendSize.getD 0

def internalMemoryFree (pool : Pool) : ℤ := max 0 (pool.internalPoolSize - pool.internalMemoryUsed)

end Pool

/-- `acquireMemory` as a thread runs it; `async` is `isAsyncPreloadThread`. -/
structure AcquireCall where
  numBytes : ℤ
  taskAttemptId : ℤ
  async : Bool := false
deriving DecidableEq

structure Grant where
  toGrant : ℤ
  numActiveTasks : ℕ
deriving DecidableEq

inductive Pass where
  | granted (grant : Grant)
  /-- An asynchronous preload thread that cannot get everything returns 0. -/
  | refused
  | waits (thisRunHasBorrowed : Bool)
  | divisionByZero
deriving DecidableEq

/-- The answer of `triggerDynamicMemoryQuotaManager`: `none` is false, and `some` is true
with the new `poolExtendSize_`, if it was changed. -/
abbrev QuotaAnswer := Option (Option ℤ)

def toGrant (call : AcquireCall) (memoryPerTask curMem freeMemory : ℤ) : ℤ :=
  min (min call.numBytes (max 0 (memoryPerTask - curMem))) freeMemory

/-- The pool after `triggerDynamicMemoryQuotaManager` has answered true. -/
def Pool.borrowed (pool : Pool) (taskAttemptId newWatermark : ℤ) (extend : Option ℤ) : Pool :=
  { pool with
    poolExtendSize := extend.or pool.poolExtendSize
    memIncreaseSize := 0
    borrowFromRssWatermarkBytes :=
      if pool.borrowFromRssWatermarkBytes taskAttemptId < newWatermark then
        Function.update pool.borrowFromRssWatermarkBytes taskAttemptId newWatermark
      else pool.borrowFromRssWatermarkBytes }

def Pool.commit (pool : Pool) (call : AcquireCall) (numActiveTasks : ℕ) (granted : ℤ) : Pass × Pool :=
  (.granted { toGrant := granted, numActiveTasks := numActiveTasks },
    { pool with
      memoryForTask := pool.memoryForTask.add call.taskAttemptId granted
      memIncreaseSize := pool.memIncreaseSize + granted })

/-- The branch of a pass that does not wait. `again` is the rest of the loop after this
run has borrowed, and `none` once it has. -/
def Pool.settle (pool : Pool) (call : AcquireCall) (quota : QuotaAnswer) (again : Option (Pool → Pass × Pool))
    (numActiveTasks : ℕ) (granted : ℤ) : Pass × Pool :=
  let curMem := pool.memoryForTask.held call.taskAttemptId
  let configureMaxMemoryPerTask := (pool.poolSize.getD 0).tdiv numActiveTasks
  if call.taskAttemptId ∈ pool.dynamicMemoryQuotaManagerDisableCounts.accounts then
    pool.commit call numActiveTasks (toGrant call configureMaxMemoryPerTask curMem pool.internalMemoryFree)
  else
    match again with
    | none => pool.commit call numActiveTasks granted
    | some again =>
      let notEnough := granted < call.numBytes
      let reachThreshold := pool.poolExtendSize.isSome ∧ pool.sampleSize ≤ pool.memIncreaseSize
      if pool.enable ∧ (notEnough ∨ reachThreshold) then
        match quota with
        | some extend => again (pool.borrowed call.taskAttemptId (min configureMaxMemoryPerTask curMem) extend)
        | none => { pool with memIncreaseSize := 0 }.commit call numActiveTasks granted
      else pool.commit call numActiveTasks granted

/-- One pass of the loop. The tasks are counted before `operator[]` opens an account that
was closed while the call waited. -/
def Pool.pass (pool : Pool) (call : AcquireCall) (quota : QuotaAnswer) (again : Option (Pool → Pass × Pool)) :
    Pass × Pool :=
  let numActiveTasks := pool.memoryForTask.accounts.card
  let pool := { pool with memoryForTask := pool.memoryForTask.enter call.taskAttemptId }
  let curMem := pool.memoryForTask.held call.taskAttemptId
  if numActiveTasks = 0 then (.divisionByZero, pool)
  else
    let maxMemoryPerTask := pool.internalPoolSize.tdiv numActiveTasks
    let minMemoryPerTask := pool.internalPoolSize.tdiv (2 * numActiveTasks)
    let granted := toGrant call maxMemoryPerTask curMem pool.internalMemoryFree
    if call.async ∧ granted < call.numBytes then (.refused, pool)
    else if granted < call.numBytes ∧ curMem + granted < minMemoryPerTask then (.waits again.isNone, pool)
    else pool.settle call quota again numActiveTasks granted

/-- The loop of `acquireMemory` up to where it returns or waits. It goes round again only
after it has borrowed, and a run borrows once. -/
def Pool.acquireLoop (call : AcquireCall) (quota : QuotaAnswer) (thisRunHasBorrowed : Bool) (pool : Pool) : Pass × Pool :=
  if thisRunHasBorrowed then pool.pass call quota none
  else pool.pass call quota (some fun pool => pool.pass call quota none)

/-- Gives bytes back; a task without any is forgotten. -/
def Pool.releaseMemory (pool : Pool) (numBytes taskAttemptId : ℤ) : ℤ × Pool :=
  let curMem := pool.memoryForTask.held taskAttemptId
  let memoryToFree := if curMem < numBytes then curMem else numBytes
  if taskAttemptId ∈ pool.memoryForTask.accounts then
    let memoryForTask := pool.memoryForTask.add taskAttemptId (-memoryToFree)
    if memoryForTask.held taskAttemptId = 0 then
      (memoryToFree,
        { pool with
          memoryForTask := memoryForTask.close taskAttemptId
          borrowFromRssWatermarkBytes := Function.update pool.borrowFromRssWatermarkBytes taskAttemptId 0 })
    else (memoryToFree, { pool with memoryForTask := memoryForTask })
  else (memoryToFree, pool)

structure Waiter where
  call : AcquireCall
  thisRunHasBorrowed : Bool

/-- The pool with the calls that wait on it. -/
structure System where
  pool : Pool
  waiting : List Waiter := []

/-- What the threads do. A waiting call is named by its place among those that wait. -/
inductive Step where
  | acquire (call : AcquireCall) (quota : QuotaAnswer)
  | wake (place : ℕ) (quota : QuotaAnswer)
  | timeout (place : ℕ)
  | release (numBytes taskAttemptId : ℤ)
  | disableQuota (taskAttemptId : ℤ)
  | enableQuota (taskAttemptId : ℤ)

inductive Answer where
  /-- A pass of the call has ended. -/
  | passed (call : AcquireCall) (pass : Pass)
  /-- `numBytes > 0` or `minMemoryMaxWaitMs > 0` does not hold. -/
  | checkFailed
  /-- The call has waited too long and returns 0. -/
  | timedOut (call : AcquireCall)
  | released (memoryToFree : ℤ)
  | done

namespace System

/-- The pool after a pass; the call waits if the pass says so. -/
def afterPass (waiting : List Waiter) (call : AcquireCall) (result : Pass × Pool) : Answer × System :=
  match result.1 with
  | .waits thisRunHasBorrowed =>
    (.passed call result.1,
      { pool := result.2, waiting := waiting ++ [{ call := call, thisRunHasBorrowed := thisRunHasBorrowed }] })
  | _ => (.passed call result.1, { pool := result.2, waiting := waiting })

def step (system : System) : Step → Answer × System
  | .acquire call quota =>
    if call.numBytes ≤ 0 then (.checkFailed, system)
    else
      let pool := { system.pool with memoryForTask := system.pool.memoryForTask.enter call.taskAttemptId }
      afterPass system.waiting call (pool.acquireLoop call quota false)
  | .wake place quota =>
    match system.waiting[place]? with
    | none => (.done, system)
    | some waiter =>
      afterPass (system.waiting.eraseIdx place) waiter.call
        (system.pool.acquireLoop waiter.call quota waiter.thisRunHasBorrowed)
  | .timeout place =>
    match system.waiting[place]? with
    | none => (.done, system)
    | some waiter =>
      (if system.pool.minMemoryMaxWaitMs ≤ 0 then .checkFailed else .timedOut waiter.call,
        { system with waiting := system.waiting.eraseIdx place })
  | .release numBytes taskAttemptId =>
    let released := system.pool.releaseMemory numBytes taskAttemptId
    (.released released.1, { system with pool := released.2 })
  | .disableQuota taskAttemptId =>
    let counts := system.pool.dynamicMemoryQuotaManagerDisableCounts.add taskAttemptId 1
    (.done, { system with pool := { system.pool with dynamicMemoryQuotaManagerDisableCounts := counts } })
  | .enableQuota taskAttemptId =>
    let counts := system.pool.dynamicMemoryQuotaManagerDisableCounts
    if taskAttemptId ∈ counts.accounts then
      let counts := if counts.held taskAttemptId = 1 then counts.close taskAttemptId else counts.add taskAttemptId (-1)
      (.done, { system with pool := { system.pool with dynamicMemoryQuotaManagerDisableCounts := counts } })
    else (.done, system)

/-- A new pool: `setPoolSize` was called with a size that it accepts, or not at all. -/
def create (poolSize : Option ℕ) (sampleSize minMemoryMaxWaitMs : ℤ) : System where
  pool :=
    { poolSize := poolSize.map (↑), enable := false, sampleSize := sampleSize, minMemoryMaxWaitMs := minMemoryMaxWaitMs }

end System

end Bolt.ExecutionPool
