import Bolt.Lib.Runs
import Mathlib.Data.Int.Notation

/-!
# The disk IO scheduler

`DiskIoSchedulerImpl` hands the requests of any number of client threads to an IO backend
from one worker thread. The state is cut where the threads can interleave: the worker is
at a point of its loop with the vectors it holds there, and every locked section, every
call of the backend and every notification is one step.

Promises are numbered in the order of the calls of `submit`. What the backend answers and
the throughput a control window measured are inputs of the steps. Statistics and times
are left out.
-/

namespace Bolt.DiskIo

/-- `IoBuffer`; `data` is the address of the payload, absent for the null pointer. -/
structure IoBuffer where
  data : Option ℕ := none
  size : ℕ := 0
  offset : ℕ := 0
  length : ℕ := 0
  owns : Bool := false
deriving DecidableEq

def IoBuffer.valid (b : IoBuffer) : Bool :=
  b.data.isSome && b.owns && decide (b.offset ≤ b.size) && decide (b.length ≤ b.size - b.offset)

/-- `IoRequest`; the opcode and the priority are the bytes behind the two enumerations. -/
structure IoRequest where
  opcode : ℕ := 0
  priority : ℕ := 1
  fd : ℤ := -1
  fileOffset : ℕ := 0
  buffer : IoBuffer := {}
deriving DecidableEq

def ioPriorityCount : ℕ := 3

/-- A request that reached a queue was validated, so its priority is one of the three. -/
def priorityIndex (priority : ℕ) : Fin 3 := Fin.ofNat 3 priority

def validOpcode (opcode : ℕ) : Bool := opcode == 0 || opcode == 1

def validPriority (priority : ℕ) : Bool := decide (priority < ioPriorityCount)

inductive IoErrorCode where
  | ok
  | invalidRequest
  | shutdown
  | backendSubmitFailed
  | backendIoError
  | shortIo
deriving DecidableEq

structure IoResult where
  bytes : ℕ := 0
  error : IoErrorCode := .ok
  nativeErrorCode : ℤ := 0
  buffer : IoBuffer := {}
deriving DecidableEq

def IoResult.ok (r : IoResult) : Bool := r.error == .ok

def validateIoRequest (request : IoRequest) : IoErrorCode :=
  if !validOpcode request.opcode || !validPriority request.priority then
    .invalidRequest
  else if request.fd < 0 || request.buffer.length == 0 || !request.buffer.valid then
    .invalidRequest
  else
    .ok

/-- `QueuedIoRequest`; `promise` is the number of the `submit` call that waits for it. -/
structure QueuedIoRequest where
  requestId : ℕ
  request : IoRequest
  promise : ℕ
deriving DecidableEq

/-! ## Deficit round robin -/

/-- Deficit round robin over the three priorities. -/
structure DrrDispatcher where
  weights : Fin 3 → ℕ
  deficits : Fin 3 → ℤ := fun _ => 0
  nextPriorityCursor : Fin 3 := 0

/-- The priorities in the order of their turns. -/
def DrrDispatcher.turns (d : DrrDispatcher) : List (Fin 3) :=
  [d.nextPriorityCursor, d.nextPriorityCursor + 1, d.nextPriorityCursor + 2]

def DrrDispatcher.hasDispatchableDeficit (d : DrrDispatcher) (queueSizes : Fin 3 → ℕ) : Bool :=
  (List.finRange 3).any fun i => decide (0 < queueSizes i) && decide (0 < d.deficits i)

def DrrDispatcher.refillDeficits (d : DrrDispatcher) (queueSizes : Fin 3 → ℕ) : DrrDispatcher :=
  { d with deficits := fun i => if 0 < queueSizes i then d.deficits i + d.weights i else 0 }

def DrrDispatcher.reset (d : DrrDispatcher) (priority : Fin 3) : DrrDispatcher :=
  { d with deficits := fun i => if i = priority then 0 else d.deficits i }

def DrrDispatcher.restore (d : DrrDispatcher) (priority : Fin 3) : DrrDispatcher :=
  { d with
    deficits := fun i => if i = priority then d.deficits i + 1 else d.deficits i
    nextPriorityCursor := priority }

def DrrDispatcher.pickLoop (queueSizes : Fin 3 → ℕ) : ℕ → DrrDispatcher → Option (Fin 3) × DrrDispatcher
  | 0, d => (none, d)
  | rounds + 1, d =>
    let priority := d.nextPriorityCursor
    let d := { d with nextPriorityCursor := d.nextPriorityCursor + 1 }
    if queueSizes priority = 0 then
      pickLoop queueSizes rounds (d.reset priority)
    else if d.deficits priority ≤ 0 then
      pickLoop queueSizes rounds d
    else
      (some priority, { d with deficits := fun i => if i = priority then d.deficits i - 1 else d.deficits i })

/-- The priority that pays for the next request; the deficits are refilled if none can. -/
def DrrDispatcher.pick (d : DrrDispatcher) (queueSizes : Fin 3 → ℕ) : Option (Fin 3) × DrrDispatcher :=
  pickLoop queueSizes ioPriorityCount
    (if d.hasDispatchableDeficit queueSizes then d else d.refillDeficits queueSizes)

/-- One queue for each priority and the number of all requests in them. -/
structure IoRequestQueue where
  dispatcher : DrrDispatcher
  queues : Fin 3 → List QueuedIoRequest := fun _ => []
  totalQueued : ℕ := 0

def IoRequestQueue.hasRequests (q : IoRequestQueue) : Bool := decide (0 < q.totalQueued)

def IoRequestQueue.queueSizes (q : IoRequestQueue) : Fin 3 → ℕ := fun i => (q.queues i).length

def IoRequestQueue.enqueue (q : IoRequestQueue) (request : QueuedIoRequest) : IoRequestQueue :=
  let priority := priorityIndex request.request.priority
  { q with
    queues := fun i => if i = priority then q.queues i ++ [request] else q.queues i
    totalQueued := q.totalQueued + 1 }

/-- Puts back a request that the backend was too busy for, with its credit. -/
def IoRequestQueue.returnToFront (q : IoRequestQueue) (request : QueuedIoRequest) : IoRequestQueue :=
  let priority := priorityIndex request.request.priority
  { dispatcher := q.dispatcher.restore priority
    queues := fun i => if i = priority then request :: q.queues i else q.queues i
    totalQueued := q.totalQueued + 1 }

/-- The loop of `collect`, with the number of requests the batch still has room for. -/
def IoRequestQueue.collect : ℕ → IoRequestQueue → List QueuedIoRequest × IoRequestQueue
  | 0, q => ([], q)
  | maxCount + 1, q =>
    if q.hasRequests then
      let picked := q.dispatcher.pick q.queueSizes
      match picked.1 with
      | none => ([], { q with dispatcher := picked.2 })
      | some priority =>
        match q.queues priority with
        -- `pick` answers only with a priority whose queue has a request
        | [] => ([], { q with dispatcher := picked.2 })
        | request :: queue =>
          let dispatcher := if queue.isEmpty then picked.2.reset priority else picked.2
          let rest := collect maxCount
            { dispatcher
              queues := fun i => if i = priority then queue else q.queues i
              totalQueued := q.totalQueued - 1 }
          (request :: rest.1, rest.2)
    else
      ([], q)

def IoRequestQueue.contents (q : IoRequestQueue) : List QueuedIoRequest :=
  q.queues 0 ++ q.queues 1 ++ q.queues 2

def IoRequestQueue.drainAll (q : IoRequestQueue) : List QueuedIoRequest × IoRequestQueue :=
  (q.contents,
    { dispatcher := ((q.dispatcher.reset 0).reset 1).reset 2, queues := fun _ => [], totalQueued := 0 })

/-! ## The in-flight registry -/

abbrev InflightRegistry := List QueuedIoRequest

def InflightRegistry.size (r : InflightRegistry) : ℕ := r.length

/-- `emplace` leaves an id that is already there. -/
def InflightRegistry.add (r : InflightRegistry) (request : QueuedIoRequest) : InflightRegistry :=
  if r.any fun q => q.requestId == request.requestId then r else r ++ [request]

def InflightRegistry.take (r : InflightRegistry) (requestId : ℕ) : Option QueuedIoRequest × InflightRegistry :=
  match r.find? fun q => q.requestId == requestId with
  | none => (none, r)
  | some request => (some request, r.eraseP fun q => q.requestId == requestId)

/-- What a closed control window measured: whether its throughput is finite and positive,
and whether the smoothed throughput improved enough on the best one. -/
structure ThroughputSample where
  valid : Bool
  improved : Bool

/-- Probes for the depth with the best throughput. -/
structure AdaptiveDepthController where
  maxDepth : ℕ
  increaseStep : ℕ
  currentDepth : ℕ
  bestDepth : ℕ
  hasBestThroughput : Bool := false
  measuringProbeDepth : Bool := false
  validPressureWindows : ℕ := 0
  probeCooldownWindows : ℕ := 0

def requiredPressureWindows : ℕ := 2

def probeCooldownWindowsAfterRollback : ℕ := 1

def AdaptiveDepthController.scheduleProbe (c : AdaptiveDepthController) : AdaptiveDepthController :=
  let nextDepth := c.currentDepth + min c.increaseStep (c.maxDepth - c.currentDepth)
  { c with measuringProbeDepth := decide (nextDepth ≠ c.currentDepth), currentDepth := nextDepth }

def AdaptiveDepthController.onWindow (c : AdaptiveDepthController) (sample : ThroughputSample) (hasBacklog : Bool) :
    AdaptiveDepthController :=
  if !hasBacklog then
    { c with validPressureWindows := 0 }
  else if !sample.valid then
    { c with validPressureWindows := 0 }
  else
    let c := { c with validPressureWindows := c.validPressureWindows + 1 }
    if 0 < c.probeCooldownWindows then
      { c with probeCooldownWindows := c.probeCooldownWindows - 1 }
    else if c.validPressureWindows < requiredPressureWindows then
      c
    else if !c.hasBestThroughput then
      AdaptiveDepthController.scheduleProbe { c with bestDepth := c.currentDepth, hasBestThroughput := true }
    else if sample.improved then
      AdaptiveDepthController.scheduleProbe { c with bestDepth := c.currentDepth }
    else if !c.measuringProbeDepth then
      c.scheduleProbe
    else
      { c with
        currentDepth := c.bestDepth
        measuringProbeDepth := false
        probeCooldownWindows := probeCooldownWindowsAfterRollback
        validPressureWindows := 0 }

inductive DepthController where
  | fixed (depth : ℕ)
  | adaptive (controller : AdaptiveDepthController)

def DepthController.currentDepth : DepthController → ℕ
  | .fixed depth => depth
  | .adaptive c => c.currentDepth

/-- `onCompletion`; no sample when the control window is still open. -/
def DepthController.onCompletion (c : DepthController) (hasBacklog : Bool) (sample : Option ThroughputSample) :
    DepthController :=
  match c, sample with
  | .adaptive c, some sample => .adaptive (c.onWindow sample hasBacklog)
  | c, _ => c

inductive BackendSubmitStatus where
  | submitted
  | retryableBusy
  | failed
deriving DecidableEq

structure BackendCompletion where
  requestId : ℕ
  result : IoResult

structure ReadyResult where
  promise : ℕ
  result : IoResult
deriving DecidableEq

structure DispatchResult where
  queued : QueuedIoRequest
  status : BackendSubmitStatus

/-- Where the worker stands in its loop, with the vectors it holds there. -/
inductive Worker where
  /-- At the top of the loop. -/
  | start
  /-- The wakeups are drained, the completions are not reaped. -/
  | reaping
  /-- Before the first locked section. -/
  | reaped (completions : List BackendCompletion)
  /-- Between the locked sections, with the rest of the batch and what was submitted of it. -/
  | dispatching (madeProgress shouldExit : Bool) (readyResults : List ReadyResult)
      (dispatchBatch : List QueuedIoRequest) (dispatchResults : List DispatchResult)
  /-- After the second locked section. -/
  | fulfilling (shouldExit shouldContinue : Bool) (readyResults : List ReadyResult)
  /-- Waiting for an event. -/
  | sleeping
  | exited

/-- What the backend and the clock answer to a step of the worker. -/
structure Surroundings where
  status : BackendSubmitStatus := .submitted
  samples : ℕ → Option ThroughputSample := fun _ => none

/-- The scheduler, its backend and its clients. `accepted` and `completed` are the
requests inside the backend, before and after their completion. `pendingNotifications`
counts the threads that have left the lock and have not notified the worker yet.
`submissions` and `fulfilled` record the calls of `submit` and of `set_value`. -/
structure Scheduler where
  depthController : DepthController
  requestQueue : IoRequestQueue
  inflight : InflightRegistry := []
  nextRequestId : ℕ := 1
  stopping : Bool := false
  worker : Worker := .start
  wakeupEvent : Bool := false
  pendingNotifications : ℕ := 0
  accepted : List ℕ := []
  completed : List BackendCompletion := []
  completionEvent : Bool := false
  submissions : List IoRequest := []
  fulfilled : List ReadyResult := []

/-- A scheduler whose worker was just started. -/
def Scheduler.create (depthController : DepthController) (priorityWeights : Fin 3 → ℕ) : Scheduler :=
  { depthController, requestQueue := { dispatcher := { weights := priorityWeights } } }

/-- Answers the promise at once, as `completedFuture` does. -/
def Scheduler.rejectNow (s : Scheduler) (request : IoRequest) (error : IoErrorCode) : Scheduler :=
  { s with
    submissions := s.submissions ++ [request]
    fulfilled := s.fulfilled ++ [⟨s.submissions.length, { error, buffer := request.buffer }⟩] }

/-- `submit` up to the notification of the worker. -/
def Scheduler.submit (s : Scheduler) (request : IoRequest) : Scheduler :=
  if validateIoRequest request ≠ .ok then
    s.rejectNow request (validateIoRequest request)
  else if s.stopping then
    s.rejectNow request .shutdown
  else
    { s with
      requestQueue := s.requestQueue.enqueue ⟨s.nextRequestId, request, s.submissions.length⟩
      nextRequestId := s.nextRequestId + 1
      pendingNotifications := s.pendingNotifications + 1
      submissions := s.submissions ++ [request] }

/-- `stopAndDrain` up to the notification of the worker. -/
def Scheduler.stop (s : Scheduler) : Scheduler :=
  { s with stopping := true, pendingNotifications := s.pendingNotifications + 1 }

def Scheduler.notifyWorker (s : Scheduler) : Scheduler :=
  if 0 < s.pendingNotifications then
    { s with wakeupEvent := true, pendingNotifications := s.pendingNotifications - 1 }
  else
    s

/-- The backend completes a request it has accepted and signals it. -/
def Scheduler.completeRequest (s : Scheduler) (completion : BackendCompletion) : Scheduler :=
  if completion.requestId ∈ s.accepted then
    { s with
      accepted := s.accepted.erase completion.requestId
      completed := s.completed ++ [completion]
      completionEvent := true }
  else
    s

def Scheduler.drainedLocked (s : Scheduler) : Bool :=
  s.inflight.size == 0 && !s.requestQueue.hasRequests

def Scheduler.applyCompletionsLocked (samples : ℕ → Option ThroughputSample) :
    Scheduler → List BackendCompletion → List ReadyResult → List ReadyResult × Scheduler
  | s, [], readyResults => (readyResults, s)
  | s, completion :: completions, readyResults =>
    let taken := s.inflight.take completion.requestId
    match taken.1 with
    | none => applyCompletionsLocked samples { s with inflight := taken.2 } completions readyResults
    | some inflight =>
      let result : IoResult :=
        if completion.result.ok && completion.result.bytes != inflight.request.buffer.length then
          { completion.result with error := .shortIo }
        else
          completion.result
      let depthController :=
        s.depthController.onCompletion s.requestQueue.hasRequests (samples completion.requestId)
      applyCompletionsLocked samples { s with inflight := taken.2, depthController } completions
        (readyResults ++ [⟨inflight.promise, { result with buffer := inflight.request.buffer }⟩])

def Scheduler.failQueuedLocked (s : Scheduler) (readyResults : List ReadyResult) : List ReadyResult × Scheduler :=
  let drained := s.requestQueue.drainAll
  (readyResults ++ drained.1.map fun queued => ⟨queued.promise, { error := .shutdown, buffer := queued.request.buffer }⟩,
    { s with requestQueue := drained.2 })

def Scheduler.collectDispatchBatchLocked (s : Scheduler) : List QueuedIoRequest × Scheduler :=
  if s.depthController.currentDepth ≤ s.inflight.size then
    ([], s)
  else
    let collected := s.requestQueue.collect (s.depthController.currentDepth - s.inflight.size)
    (collected.1, { s with requestQueue := collected.2 })

/-- `applyDispatchResultsLocked`: whether it made progress, the ready results, and the state. -/
def Scheduler.applyDispatchResultsLocked :
    Scheduler → List DispatchResult → Bool → List ReadyResult → Bool × List ReadyResult × Scheduler
  | s, [], madeProgress, readyResults => (madeProgress, readyResults, s)
  | s, dispatch :: results, madeProgress, readyResults =>
    match dispatch.status with
    | .retryableBusy =>
      applyDispatchResultsLocked { s with requestQueue := s.requestQueue.returnToFront dispatch.queued } results
        madeProgress readyResults
    | .failed =>
      applyDispatchResultsLocked s results true (readyResults ++
        [⟨dispatch.queued.promise, { error := .backendSubmitFailed, buffer := dispatch.queued.request.buffer }⟩])
    | .submitted =>
      applyDispatchResultsLocked { s with inflight := s.inflight.add dispatch.queued } results true readyResults

/-- Applies the completions and collects the next batch. -/
def Scheduler.firstSection (s : Scheduler) (samples : ℕ → Option ThroughputSample)
    (completions : List BackendCompletion) : Scheduler :=
  let applied := applyCompletionsLocked samples s completions []
  let failed := if s.stopping then applied.2.failQueuedLocked applied.1 else applied
  let collected := if s.stopping then ([], failed.2) else failed.2.collectDispatchBatchLocked
  { collected.2 with
    worker := .dispatching (!completions.isEmpty)
      (s.stopping && collected.2.drainedLocked && collected.1.isEmpty) failed.1 collected.1 [] }

def Scheduler.submitNext (s : Scheduler) (status : BackendSubmitStatus) (madeProgress shouldExit : Bool)
    (readyResults : List ReadyResult) (queued : QueuedIoRequest) (dispatchBatch : List QueuedIoRequest)
    (dispatchResults : List DispatchResult) : Scheduler :=
  { s with
    worker := .dispatching madeProgress shouldExit readyResults dispatchBatch (dispatchResults ++ [⟨queued, status⟩])
    accepted := if status = .submitted then s.accepted ++ [queued.requestId] else s.accepted }

/-- Applies what the backend answered to the batch. -/
def Scheduler.secondSection (s : Scheduler) (madeProgress shouldExit : Bool) (readyResults : List ReadyResult)
    (dispatchResults : List DispatchResult) : Scheduler :=
  let applied := applyDispatchResultsLocked s dispatchResults false readyResults
  let dispatchMadeProgress := applied.1
  let s := applied.2.2
  { s with
    worker := .fulfilling (shouldExit || (s.stopping && s.drainedLocked))
      (madeProgress || dispatchMadeProgress ||
        (s.requestQueue.hasRequests && decide (s.inflight.size < s.depthController.currentDepth) &&
          !(!dispatchResults.isEmpty && !dispatchMadeProgress)))
      applied.2.1 }

/-- The worker goes on to the next point of its loop. -/
def Scheduler.work (s : Scheduler) (surroundings : Surroundings) : Scheduler :=
  match s.worker with
  | .start => { s with worker := .reaping, wakeupEvent := false }
  | .reaping => { s with worker := .reaped s.completed, completed := [], completionEvent := false }
  | .reaped completions => s.firstSection surroundings.samples completions
  | .dispatching madeProgress shouldExit readyResults (queued :: dispatchBatch) dispatchResults =>
    s.submitNext surroundings.status madeProgress shouldExit readyResults queued dispatchBatch dispatchResults
  | .dispatching madeProgress shouldExit readyResults [] dispatchResults =>
    s.secondSection madeProgress shouldExit readyResults dispatchResults
  | .fulfilling shouldExit shouldContinue (ready :: readyResults) =>
    { s with worker := .fulfilling shouldExit shouldContinue readyResults, fulfilled := s.fulfilled ++ [ready] }
  | .fulfilling shouldExit shouldContinue [] =>
    { s with worker := if shouldExit then .exited else if shouldContinue then .start else .sleeping }
  | .sleeping => if s.wakeupEvent || s.completionEvent then { s with worker := .start } else s
  | .exited => s

/-- What a client, the backend or the worker does. -/
inductive Step where
  | submit (request : IoRequest)
  | stop
  | notifyWorker
  | complete (completion : BackendCompletion)
  | work (surroundings : Surroundings)

def Scheduler.step (s : Scheduler) : Step → Scheduler
  | .submit request => s.submit request
  | .stop => s.stop
  | .notifyWorker => s.notifyWorker
  | .complete completion => s.completeRequest completion
  | .work surroundings => s.work surroundings

end Bolt.DiskIo
