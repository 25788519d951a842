import Bolt.BufferManager.DiskIoRuns
import Mathlib.Data.Fin.VecNotation

/-!
# What the scheduler completes without a shutdown

Once the clients stop submitting, the scheduler comes to rest, with every request answered
that the backend has accepted or refused. A request that it was too busy for is queued
again, and nothing but a further event makes the worker offer it once more, so it may stay
there.
-/

namespace Bolt.DiskIo

open Lib.Inevitable Scheduler Worker List

variable {limit : ℕ} {weights : Fin 3 → ℕ} {s t : Scheduler} {answers : BackendSubmitStatus → Prop}

/-! ## Rest -/

section

variable (hsound : Sound limit weights s)
include hsound

end

/-- The calls whose requests the backend has accepted or refused, up to their answers. -/
def Scheduler.decided (s : Scheduler) : List (ℕ × IoBuffer) :=
  (s.inflight ++ answered .submitted s.worker.dispatchResults ++ answered .failed s.worker.dispatchResults).map
      QueuedIoRequest.token ++
    s.worker.readyResults.map ReadyResult.token

variable {token : ℕ × IoBuffer}

/-- The depth is never zero, also after a failed probe. -/
def DepthController.Positive : DepthController → Prop
  | .fixed depth => 0 < depth
  | .adaptive c => 0 < c.currentDepth ∧ 0 < c.bestDepth

theorem DepthController.Positive.onCompletion {c : DepthController} (hc : c.Positive) (hasBacklog : Bool)
    (sample : Option ThroughputSample) : (c.onCompletion hasBacklog sample).Positive := by
  cases c with
  | fixed depth => exact hc
  | adaptive c =>
    cases sample with
    | none => exact hc
    | some sample =>
      obtain ⟨hcurrent, hbest⟩ := hc
      simp only [DepthController.onCompletion, AdaptiveDepthController.onWindow, Positive,
        AdaptiveDepthController.scheduleProbe]
      split_ifs <;> dsimp only <;> omega

theorem DepthController.Positive.currentDepth_pos {c : DepthController} (hc : c.Positive) : 0 < c.currentDepth := by
  cases c with
  | fixed depth => exact hc
  | adaptive c => exact hc.1

theorem positive_applyCompletionsLocked (samples : ℕ → Option ThroughputSample) (completions : List BackendCompletion) :
    ∀ (s : Scheduler) (readyResults : List ReadyResult), s.depthController.Positive →
      (applyCompletionsLocked samples s completions readyResults).2.depthController.Positive := by
  induction completions with
  | nil => exact fun s _ hs => hs
  | cons completion completions ih =>
    intro s readyResults hs
    unfold applyCompletionsLocked
    dsimp only
    split
    · exact ih _ _ hs
    · exact ih _ _ (hs.onCompletion _ _)

/-- The worker sleeps, or is about to. -/
def Worker.resting : Worker → Bool
  | .fulfilling _ shouldContinue _ => !shouldContinue
  | .sleeping => true
  | _ => false

/-- While the backend was never too busy, a worker that rests has left nothing queued, or is
about to be woken. -/
structure Attended (s : Scheduler) : Prop where
  notBusy : answered .retryableBusy s.worker.dispatchResults = []
  positive : s.depthController.Positive
  attended : s.worker.resting = true →
    s.requestQueue.contents = [] ∨ s.inflight ≠ [] ∨ 0 < s.pendingNotifications ∨ s.wakeupEvent = true

section Attended

variable (h : Invariant limit s) (hattended : Attended s)
include hattended

theorem Attended.withWorker {w : Worker} {wakeupEvent completionEvent : Bool} {completed : List BackendCompletion}
    {fulfilled : List ReadyResult} (hresults : w.dispatchResults = []) (hresting : w.resting = true →
      s.worker.resting = true ∧ wakeupEvent = s.wakeupEvent) :
    Attended { s with worker := w, wakeupEvent, completionEvent, completed, fulfilled } := by
  refine ⟨?_, hattended.positive, fun hrests => ?_⟩
  · rw [hresults]
    rfl
  · obtain ⟨hrests, heq⟩ := hresting hrests
    rw [heq]
    exact hattended.attended hrests

theorem Attended.firstSection {completions : List BackendCompletion} (samples : ℕ → Option ThroughputSample) :
    Attended (s.firstSection samples completions) := by
  have hpositive := positive_applyCompletionsLocked samples completions s [] hattended.positive
  refine ⟨rfl, ?_, nofun⟩
  unfold Scheduler.firstSection
  generalize applyCompletionsLocked samples s completions [] = applied at hpositive
  by_cases hs : s.stopping = true
  · simp only [if_pos hs, failQueuedLocked]
    exact hpositive
  · simp only [if_neg hs, collectDispatchBatchLocked]
    split <;> exact hpositive

include h in
theorem Attended.secondSection {madeProgress shouldExit : Bool} {readyResults : List ReadyResult}
    {dispatchResults : List DispatchResult}
    (hw : s.worker = .dispatching madeProgress shouldExit readyResults [] dispatchResults) :
    Attended (s.secondSection madeProgress shouldExit readyResults dispatchResults) := by
  obtain ⟨dispatchMadeProgress, ready, inflight, requestQueue, happlied, -, hprogress, -, -, -, hcounted⟩ :=
    exists_dispatchApplied h hw
  have hnotBusy := hattended.notBusy
  rw [hw] at hnotBusy
  rw [Scheduler.secondSection, happlied]
  refine ⟨rfl, hattended.positive, fun hrests => ?_⟩
  simp only [resting, Bool.not_eq_true', Bool.or_eq_false_iff] at hrests
  obtain ⟨⟨-, hno⟩, hroom⟩ := hrests
  -- without progress and without busy answers nothing was dispatched
  have hnone : dispatchResults = [] := by
    rw [hno, Bool.false_or, eq_comm, any_eq_false] at hprogress
    rw [answered, map_eq_nil_iff, filter_eq_nil_iff] at hnotBusy
    refine eq_nil_iff_forall_not_mem.mpr fun dispatch hd => hnotBusy dispatch hd ?_
    simpa using hprogress dispatch hd
  rw [hnone, hno] at hroom
  simp only [isEmpty_nil, Bool.not_true, Bool.not_false, Bool.and_true, Bool.and_eq_false_iff,
    decide_eq_false_iff_not, Nat.not_lt] at hroom
  rcases hroom with hempty | hfull
  · exact .inl ((not_hasRequests_iff hcounted).mp hempty)
  · refine .inr (.inl fun hnil => ?_)
    have hdepth := hattended.positive.currentDepth_pos
    have hsize : inflight.size = 0 := by
      rw [show inflight = [] from hnil]
      rfl
    omega

include h in
/-- One step of a run in which the backend is not too busy. -/
theorem Attended.step {step : Step}
    (hbusy : ∀ surroundings, step = .work surroundings → surroundings.status ≠ .retryableBusy) :
    Attended (s.step step) := by
  cases step with
  | submit request =>
    rw [Scheduler.step, submit]
    split_ifs
    · exact ⟨hattended.notBusy, hattended.positive, hattended.attended⟩
    · exact ⟨hattended.notBusy, hattended.positive, hattended.attended⟩
    · exact ⟨hattended.notBusy, hattended.positive, fun _ => .inr (.inr (.inl (Nat.succ_pos _)))⟩
  | stop => exact ⟨hattended.notBusy, hattended.positive, fun _ => .inr (.inr (.inl (Nat.succ_pos _)))⟩
  | notifyWorker =>
    rw [Scheduler.step, notifyWorker]
    split
    · exact ⟨hattended.notBusy, hattended.positive, fun _ => .inr (.inr (.inr rfl))⟩
    · exact hattended
  | complete completion =>
    rw [Scheduler.step, completeRequest]
    split
    · exact ⟨hattended.notBusy, hattended.positive, hattended.attended⟩
    · exact hattended
  | work surroundings =>
    rw [Scheduler.step, work]
    split
    case h_1 hw => exact hattended.withWorker rfl (by rintro ⟨⟩)
    case h_2 hw => exact hattended.withWorker rfl (by rintro ⟨⟩)
    case h_3 completions hw => exact hattended.firstSection surroundings.samples
    case h_4 hw =>
      refine ⟨?_, hattended.positive, by rintro ⟨⟩⟩
      have hnotBusy := hattended.notBusy
      rw [hw] at hnotBusy
      simp only [submitNext, dispatchResults, answered_concat, if_neg (hbusy surroundings rfl), append_nil]
      exact hnotBusy
    case h_5 hw => exact Attended.secondSection h hattended hw
    case h_6 hw => exact hattended.withWorker rfl fun hrests => ⟨by rw [hw]; exact hrests, rfl⟩
    case h_7 shouldExit shouldContinue hw =>
      cases shouldExit <;> cases shouldContinue
      · exact hattended.withWorker rfl fun _ => ⟨by rw [hw]; rfl, rfl⟩
      all_goals exact hattended.withWorker rfl (by rintro ⟨⟩)
    case h_8 hw =>
      split
      · exact hattended.withWorker rfl (by rintro ⟨⟩)
      · exact hattended
    case h_9 hw => exact hattended

end Attended

end Bolt.DiskIo
