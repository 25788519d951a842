import Bolt.BufferManager.DiskIoOrder
import Bolt.Lib.Inevitable

/-!
# Runs of the scheduler

Every run keeps the invariant, so every promise is answered at most once and with the
buffer of its request. In whatever order the threads and the backend move, each of their
steps lowers a rank, so that they come to rest unless clients go on submitting. After a
shutdown the worker exits as long as the backend completes what it accepted.
-/

namespace Bolt.DiskIo

open Lib.Inevitable Scheduler Worker List

variable {limit : ℕ} {s t : Scheduler}

def Scheduler.answers (s : Scheduler) (promise : ℕ) : List IoResult :=
  (s.fulfilled.filter fun ready => ready.promise == promise).map ReadyResult.result

variable {promise : ℕ}

variable (h : Invariant limit s)

/-- The call has been answered once, with its buffer. -/
def Scheduler.Answered (s : Scheduler) (token : ℕ × IoBuffer) : Prop :=
  ∃ result, s.answers token.1 = [result] ∧ result.buffer = token.2

/-- A step that is not a client's: a thread notifies the worker, the backend completes a
request it accepted, or the worker moves, which it can unless it waits for an event. The
backend gives answers of some kind. -/
inductive Moves (answers : BackendSubmitStatus → Prop) (s : Scheduler) : Scheduler → Prop where
  | notifyWorker : 0 < s.pendingNotifications → Moves answers s s.notifyWorker
  | complete (completion : BackendCompletion) :
      completion.requestId ∈ s.accepted → Moves answers s (s.completeRequest completion)
  | work (surroundings : Surroundings) : answers surroundings.status → s.worker ≠ .exited →
      (s.worker = .sleeping → (s.wakeupEvent || s.completionEvent) = true) → Moves answers s (s.work surroundings)

/-- How far the requests are from their promises: five stations for a request that is
queued or may be queued again, four for one inside the backend. -/
def Scheduler.stations (s : Scheduler) : ℕ :=
  5 * (s.requestQueue.contents.length + s.worker.dispatchBatch.length +
      (answered .retryableBusy s.worker.dispatchResults).length) +
    3 * (answered .failed s.worker.dispatchResults).length +
    4 * s.accepted.length + 3 * s.completed.length + 2 * s.worker.completions.length + s.worker.readyResults.length

/-- What an event still counts: less once the worker is up to see it. -/
def Worker.wakeupWeight : Worker → ℕ
  | .start => 1
  | _ => 2

def Worker.completionWeight : Worker → ℕ
  | .start => 1
  | .reaping => 1
  | _ => 2

def Scheduler.events (s : Scheduler) : ℕ :=
  3 * s.pendingNotifications + (if s.wakeupEvent then s.worker.wakeupWeight else 0) +
    if s.completionEvent then s.worker.completionWeight else 0

/-- The worker will begin another round: it has made progress, or there are requests that it has
room for and did not take. -/
def Scheduler.goesOn (s : Scheduler) : Bool :=
  match s.worker with
  | .dispatching madeProgress _ _ dispatchBatch dispatchResults =>
    madeProgress || (dispatchResults.any fun dispatch => dispatch.status != .retryableBusy) ||
      (dispatchBatch.isEmpty && dispatchResults.isEmpty && s.requestQueue.hasRequests &&
        decide (s.inflight.size < s.depthController.currentDepth))
  | _ => false

/-- How far the worker is from its next sleep. -/
def Scheduler.roundSteps (s : Scheduler) : ℕ :=
  match s.worker with
  | .start => 14 + s.requestQueue.contents.length
  | .reaping => 13 + s.requestQueue.contents.length
  | .reaped _ => 12 + s.requestQueue.contents.length
  | .dispatching _ _ _ dispatchBatch dispatchResults =>
    if s.goesOn then 16 + s.requestQueue.contents.length + (answered .retryableBusy dispatchResults).length +
        2 * dispatchBatch.length
    else 3 + dispatchBatch.length
  | .fulfilling _ shouldContinue _ => if shouldContinue then 15 + s.requestQueue.contents.length else 2
  | .sleeping => 0
  | .exited => 0

def Scheduler.rank (s : Scheduler) : ℕ × ℕ × ℕ := (s.stations, s.events, s.roundSteps)

section Worker

variable {madeProgress shouldExit shouldContinue : Bool} {ready : ReadyResult} {readyResults : List ReadyResult}
  {queued : QueuedIoRequest} {dispatchBatch : List QueuedIoRequest} {dispatchResults : List DispatchResult}

attribute [local simp] stations roundSteps dispatchBatch dispatchResults
  completions readyResults

end Worker

/-- What every step keeps: the invariant, and queues that share by the weights. -/
structure Sound (limit : ℕ) (weights : Fin 3 → ℕ) (s : Scheduler) : Prop where
  invariant : Invariant limit s
  shared : Shared weights s.requestQueue

variable {weights : Fin 3 → ℕ} {answers : BackendSubmitStatus → Prop}

theorem Sound.step (h : Sound limit weights s) (step : Step) : Sound limit weights (s.step step) := by
  obtain ⟨hkept, hweights⟩ := kept_step h.shared.kept step
  have hinvariant := step_invariant h.invariant step
  exact ⟨hinvariant, hkept, hinvariant.counted, hweights.trans h.shared.weights⟩

section

variable (hsound : Sound limit weights s)
include hsound

variable (hs : s.stopping = true)
include hs

end

end Bolt.DiskIo
