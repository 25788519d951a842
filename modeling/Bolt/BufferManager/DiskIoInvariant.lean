import Bolt.BufferManager.DiskIoOperations
import Mathlib.Data.List.Perm.Subperm

/-!
# The invariant of the scheduler

Each promise is in one place: with a queued request, with a request of the worker's batch,
in the in-flight registry, in a ready result, or fulfilled. The backend knows the ids of
the requests in flight and no others. A worker that is about to leave has nothing left, and
one that goes to sleep after a shutdown still waits for the backend.
-/

namespace Bolt.DiskIo

open List Scheduler BackendCompletion

/-! ## What the worker holds -/

def Worker.completions : Worker → List BackendCompletion
  | .reaped completions => completions
  | _ => []

def Worker.readyResults : Worker → List ReadyResult
  | .dispatching _ _ readyResults _ _ => readyResults
  | .fulfilling _ _ readyResults => readyResults
  | _ => []

def Worker.dispatchBatch : Worker → List QueuedIoRequest
  | .dispatching _ _ _ dispatchBatch _ => dispatchBatch
  | _ => []

def Worker.dispatchResults : Worker → List DispatchResult
  | .dispatching _ _ _ _ dispatchResults => dispatchResults
  | _ => []

def Worker.leaving : Worker → Bool
  | .dispatching _ shouldExit _ _ _ => shouldExit
  | .fulfilling shouldExit _ _ => shouldExit
  | .exited => true
  | _ => false

/-- The worker has passed the first locked section and not begun the next round. -/
def Worker.pastFirstSection : Worker → Bool
  | .dispatching .. => true
  | .fulfilling .. => true
  | .sleeping => true
  | _ => false

def Worker.staying : Worker → Bool
  | .fulfilling shouldExit _ _ => !shouldExit
  | .sleeping => true
  | _ => false

def Scheduler.waiting (s : Scheduler) : List QueuedIoRequest :=
  s.requestQueue.contents ++ (s.worker.dispatchBatch ++ s.worker.dispatchResults.map DispatchResult.queued) ++ s.inflight

/-- The calls that have no answer yet. -/
def Scheduler.outstanding (s : Scheduler) : List (ℕ × IoBuffer) :=
  s.waiting.map QueuedIoRequest.token ++ s.worker.readyResults.map ReadyResult.token

/-- The promises of all calls of `submit`, with the buffers that came with them. -/
def Scheduler.promised (s : Scheduler) : List (ℕ × IoBuffer) :=
  s.submissions.mapIdx fun promise request => (promise, request.buffer)

/-- Every call is outstanding or answered, and ids and depths are in order. -/
structure Invariant (limit : ℕ) (s : Scheduler) : Prop where
  counted : s.requestQueue.Counted
  tokens : (s.outstanding ++ s.fulfilled.map ReadyResult.token).Perm s.promised
  ids_nodup : (s.waiting.map QueuedIoRequest.requestId).Nodup
  ids_lt : ∀ requestId ∈ s.waiting.map QueuedIoRequest.requestId, requestId < s.nextRequestId
  backend : (s.worker.completions.map requestId ++
    (s.accepted ++ s.completed.map requestId)).Perm
    ((s.inflight ++ answered .submitted s.worker.dispatchResults).map QueuedIoRequest.requestId)
  signalled : s.completed ≠ [] → s.completionEvent = true
  depth_le : s.inflight.length + (s.worker.dispatchBatch.length + s.worker.dispatchResults.length) ≤ limit
  within : s.depthController.Within limit
  leaves : s.worker.leaving = true → s.stopping = true ∧ s.waiting = []
  seesStop : s.stopping = true → s.pendingNotifications = 0 → s.wakeupEvent = false →
    (s.worker.pastFirstSection = true → s.requestQueue.contents = [] ∧ s.worker.dispatchBatch = [] ∧
      s.worker.dispatchResults = []) ∧
    (s.worker.staying = true → s.inflight ≠ [])

variable {limit : ℕ} {s : Scheduler}

theorem promised_concat (submissions : List IoRequest) (request : IoRequest) :
    ((submissions ++ [request]).mapIdx fun promise request => (promise, request.buffer)) =
      (submissions.mapIdx fun promise request => (promise, request.buffer)) ++
        [(submissions.length, request.buffer)] := by
  simp

section Callers

variable (h : Invariant limit s)
include h

theorem rejectNow_invariant (request : IoRequest) (error : IoErrorCode) :
    Invariant limit (s.rejectNow request error) := by
  refine { h with tokens := ?_ }
  show (s.outstanding ++ (s.fulfilled ++ [_]).map ReadyResult.token).Perm ((s.submissions ++ [request]).mapIdx _)
  rw [promised_concat, map_append, ← append_assoc]
  exact h.tokens.append_right _

/-- A call is answered at once or queued. -/
theorem submit_invariant (request : IoRequest) : Invariant limit (s.submit request) := by
  unfold submit
  split
  · exact rejectNow_invariant h request _
  split
  · exact rejectNow_invariant h request _
  rename_i hs
  generalize hqueued : QueuedIoRequest.mk s.nextRequestId request s.submissions.length = queued
  have hc := enqueue_contents s.requestQueue queued
  have hwa : ((s.requestQueue.enqueue queued).contents ++
      (s.worker.dispatchBatch ++ s.worker.dispatchResults.map DispatchResult.queued) ++ s.inflight).Perm
      (queued :: s.waiting) := (hc.append_right _).append_right _
  refine ⟨enqueue_counted h.counted queued, ?_, ?_, ?_, h.backend, h.signalled, h.depth_le, h.within, ?_, ?_⟩
  · show ((_ ++ s.worker.readyResults.map ReadyResult.token) ++ s.fulfilled.map ReadyResult.token).Perm
      ((s.submissions ++ [request]).mapIdx _)
    rw [promised_concat]
    have hto : queued.token = (s.submissions.length, request.buffer) := by rw [← hqueued]; rfl
    have ht := hwa.map QueuedIoRequest.token
    rw [map_cons, hto] at ht
    exact ((ht.append_right _).append_right _).trans ((h.tokens.cons _).trans (perm_append_singleton _ _).symm)
  · have hids := hwa.map QueuedIoRequest.requestId
    refine hids.nodup_iff.mpr (nodup_cons.mpr ⟨fun hm => ?_, h.ids_nodup⟩)
    have hlt := h.ids_lt _ hm
    rw [← hqueued] at hlt
    exact Nat.lt_irrefl _ hlt
  · intro requestId hm
    rcases mem_cons.mp ((hwa.map QueuedIoRequest.requestId).subset hm) with rfl | hm
    · rw [← hqueued]
      exact Nat.lt_succ_self _
    · exact Nat.lt_succ_of_lt (h.ids_lt _ hm)
  · exact fun hl => absurd (h.leaves hl).1 hs
  · exact fun h => absurd h hs

theorem stop_invariant : Invariant limit s.stop := by
  refine { h with leaves := ?_, seesStop := ?_ }
  · exact fun hl => ⟨rfl, (h.leaves hl).2⟩
  · exact fun _ hp => absurd hp (Nat.succ_ne_zero _)

theorem notifyWorker_invariant : Invariant limit s.notifyWorker := by
  unfold notifyWorker
  split
  · refine { h with seesStop := ?_ }
    exact fun _ _ hwakeup => absurd hwakeup.symm Bool.false_ne_true
  · exact h

theorem completeRequest_invariant (compl : BackendCompletion) : Invariant limit (s.completeRequest compl) := by
  unfold completeRequest
  split
  · rename_i hm
    refine { h with backend := ?_, signalled := fun _ => rfl }
    refine Perm.trans (Perm.append_left _ ?_) h.backend
    rw [map_append, ← append_assoc]
    have hera := (perm_cons_erase hm).symm.append_right (s.completed.map requestId)
    exact (perm_append_singleton _ _).trans hera
  · exact h

end Callers

theorem drainWakeup_invariant (h : Invariant limit { s with worker := .start }) :
    Invariant limit { s with worker := .reaping, wakeupEvent := false } :=
  ⟨h.counted, h.tokens, h.ids_nodup, h.ids_lt, h.backend, h.signalled, h.depth_le, h.within,
    fun hl => absurd hl Bool.false_ne_true,
    fun _ _ _ => ⟨fun hp => absurd hp Bool.false_ne_true, fun hs => absurd hs Bool.false_ne_true⟩⟩

theorem reap_invariant (h : Invariant limit { s with worker := .reaping }) :
    Invariant limit { s with worker := .reaped s.completed, completed := [], completionEvent := false } := by
  refine ⟨h.counted, h.tokens, h.ids_nodup, h.ids_lt, ?_, fun hne => absurd rfl hne, h.depth_le, h.within,
    fun hl => absurd hl Bool.false_ne_true,
    fun _ _ _ => ⟨fun hp => absurd hp Bool.false_ne_true, fun hs => absurd hs Bool.false_ne_true⟩⟩
  show (s.completed.map requestId ++ (s.accepted ++ [])).Perm _
  rw [append_nil]
  exact perm_append_comm.trans h.backend

/-- The batch comes off the queue and fits below the limit. -/
structure BatchCollected (s : Scheduler) (out : List QueuedIoRequest × Scheduler) : Prop where
  frame : out.2 = { s with requestQueue := out.2.requestQueue }
  contents : (out.1 ++ out.2.requestQueue.contents).Perm s.requestQueue.contents
  counted : out.2.requestQueue.Counted
  depth_le : ∀ limit, s.depthController.Within limit → s.inflight.length ≤ limit →
    s.inflight.length + out.1.length ≤ limit

section

variable (hcou : s.requestQueue.Counted)
include hcou

theorem collectDispatchBatchLocked_spec : BatchCollected s s.collectDispatchBatchLocked := by
  unfold collectDispatchBatchLocked
  split
  · exact ⟨rfl, .refl _, hcou, fun _ _ h => h⟩
  · rename_i hsl
    obtain ⟨hc, hl, hcounted'⟩ :=
      collect_spec (s.depthController.currentDepth - s.inflight.size) s.requestQueue hcou
    refine ⟨rfl, hc, hcounted', fun limit hwi _ => ?_⟩
    have hd := currentDepth_le hwi
    have hs : s.inflight.size = s.inflight.length := rfl
    dsimp only
    omega

theorem eq_nil_of_drained (hd : s.drainedLocked = true) : s.requestQueue.contents = [] ∧ s.inflight = [] := by
  unfold drainedLocked InflightRegistry.size at hd
  rw [Bool.and_eq_true, beq_iff_eq, length_eq_zero_iff, Bool.not_eq_true'] at hd
  exact ⟨(not_hasRequests_iff hcou).mp hd.2, hd.1⟩

theorem drained_of_eq_nil (hc : s.requestQueue.contents = []) (hinf : s.inflight = []) :
    s.drainedLocked = true := by
  unfold drainedLocked InflightRegistry.size
  rw [(not_hasRequests_iff hcou).mpr hc, hinf]
  rfl

end

/-- What the first locked section leaves: the completed requests are ready, the queue is
failed after a shutdown and otherwise gave up the batch. -/
structure FirstSection (s : Scheduler) (completions : List BackendCompletion) (t : Scheduler)
    (ready : List ReadyResult) (batch : List QueuedIoRequest) : Prop where
  frame : t = { s with
    inflight := t.inflight
    depthController := t.depthController
    requestQueue := t.requestQueue
    worker := .dispatching (!completions.isEmpty) (s.stopping && t.drainedLocked && batch.isEmpty) ready batch [] }
  tokens : ((t.requestQueue.contents ++ batch ++ t.inflight).map QueuedIoRequest.token ++ ready.map ReadyResult.token).Perm
    ((s.requestQueue.contents ++ s.inflight).map QueuedIoRequest.token)
  queueIds : ((t.requestQueue.contents ++ batch).map QueuedIoRequest.requestId).Subperm
    (s.requestQueue.contents.map QueuedIoRequest.requestId)
  inflightIds : (completions.map requestId ++ t.inflight.map QueuedIoRequest.requestId).Perm
    (s.inflight.map QueuedIoRequest.requestId)
  counted : t.requestQueue.Counted
  within : ∀ limit, s.depthController.Within limit → t.depthController.Within limit
  depth_le : ∀ limit, s.depthController.Within limit → s.inflight.length ≤ limit → t.inflight.length + batch.length ≤ limit
  ready_length : ready.length + t.requestQueue.contents.length + batch.length =
    completions.length + s.requestQueue.contents.length
  stopped : s.stopping = true → t.requestQueue.contents = [] ∧ batch = []

/-- The first locked section moves requests and loses none. -/
theorem firstSection_spec (samples : ℕ → Option ThroughputSample) (completions : List BackendCompletion) (others : List ℕ)
    (hcou : s.requestQueue.Counted)
    (hids : (completions.map requestId ++ others).Perm (s.inflight.map QueuedIoRequest.requestId)) :
    ∃ ready batch, FirstSection s completions (s.firstSection samples completions) ready batch := by
  obtain ⟨hfr, ⟨new, hn, hlen, ht⟩, hids', hwi⟩ := applyCompletionsLocked_spec samples completions s [] others hids
  unfold firstSection
  generalize applyCompletionsLocked samples s completions [] = applied at *
  obtain ⟨ready, t⟩ := applied
  obtain ⟨inflight, depthController, rfl⟩ : ∃ inflight depthController, t = { s with inflight, depthController } :=
    ⟨_, _, hfr⟩
  dsimp only at hn ht hids' hwi
  subst hn
  have hle : inflight.length ≤ s.inflight.length := by
    have hl := hids'.length_eq
    rw [length_append, length_map, length_map, length_map] at hl
    omega
  by_cases hst : s.stopping = true
  · refine ⟨(failQueuedLocked { s with inflight, depthController } ready).1, [], ?_⟩
    simp only [if_pos hst]
    have hf := failQueuedLocked_tokens { s with inflight, depthController } ready
    refine ⟨rfl, ?_, (nil_sublist _).subperm, hids', rfl, hwi, ?_, ?_, fun _ => ⟨rfl, rfl⟩⟩
    · show (([] ++ [] ++ inflight).map QueuedIoRequest.token ++ _).Perm _
      rw [hf, perm_iff_count]
      intro token
      have hco := ht.count_eq token
      simp only [count_append, map_append, map_nil, count_nil] at hco ⊢
      omega
    · exact fun limit _ hli => Nat.le_trans hle hli
    · have hl := congrArg length hf
      simp only [length_append, length_map] at hl
      show _ + 0 + 0 = _
      omega
  · obtain ⟨hfr', hc, hcounted', hd⟩ :=
      collectDispatchBatchLocked_spec (s := { s with inflight, depthController }) hcou
    simp only [if_neg hst]
    generalize collectDispatchBatchLocked { s with inflight, depthController } = collected at *
    obtain ⟨batch, t⟩ := collected
    obtain ⟨requestQueue, rfl⟩ : ∃ requestQueue, t = { s with inflight, depthController, requestQueue } := ⟨_, hfr'⟩
    refine ⟨ready, batch, rfl, ?_, ?_, hids', hcounted', hwi, ?_, ?_, fun hs => absurd hs hst⟩
    · rw [perm_iff_count]
      intro token
      have hco := ht.count_eq token
      have hcou' := (hc.map QueuedIoRequest.token).count_eq token
      simp only [count_append, map_append] at hco hcou' ⊢
      omega
    · exact ((perm_append_comm.trans hc).map _).subperm
    · exact fun limit hli hinf => hd limit (hwi limit hli) (Nat.le_trans hle hinf)
    · have hl := hc.length_eq
      rw [length_append] at hl
      dsimp only at hl ⊢
      omega

theorem withWorker_eq {w : Worker} (hw : s.worker = w) : { s with worker := w } = s := by rw [← hw]

section FirstSection

variable {completions : List BackendCompletion} (h : Invariant limit s) (hw : s.worker = .reaped completions)
  (samples : ℕ → Option ThroughputSample)
include h hw

/-- The backend knows the requests in flight, up to those whose completions were reaped. -/
theorem backend_reaped : (completions.map requestId ++ (s.accepted ++ s.completed.map requestId)).Perm
    (s.inflight.map QueuedIoRequest.requestId) := by
  have hb := h.backend
  rw [hw] at hb
  change (completions.map requestId ++ _).Perm ((s.inflight ++ []).map _) at hb
  rwa [append_nil] at hb

theorem firstSection_of_invariant :
    ∃ ready batch, FirstSection s completions (s.firstSection samples completions) ready batch :=
  firstSection_spec samples completions _ h.counted (backend_reaped h hw)

theorem firstSection_invariant : Invariant limit (s.firstSection samples completions) := by
  have hwa : s.waiting = s.requestQueue.contents ++ s.inflight := by
    rw [waiting, hw]
    show s.requestQueue.contents ++ [] ++ s.inflight = _
    rw [append_nil]
  obtain ⟨ready, batch, hf⟩ := firstSection_of_invariant h hw samples
  generalize s.firstSection samples completions = t at hf
  obtain ⟨hfr, ht, hqueueIds, hinflightIds, hcou, hwi, hd, -, hstopped⟩ := hf
  obtain ⟨inflight, depthController, requestQueue, shouldExit, hexi, rfl⟩ :
      ∃ inflight depthController requestQueue shouldExit,
        (shouldExit = true → s.stopping = true ∧ requestQueue.contents = [] ∧ inflight = [] ∧ batch = []) ∧
        t = { s with
          inflight := inflight
          depthController := depthController
          requestQueue := requestQueue
          worker := .dispatching (!completions.isEmpty) shouldExit ready batch [] } := by
    refine ⟨_, _, _, _, fun hexi => ?_, hfr⟩
    rw [Bool.and_eq_true, Bool.and_eq_true] at hexi
    obtain ⟨hc, hinf⟩ := eq_nil_of_drained hcou hexi.1.2
    exact ⟨hexi.1.1, hc, hinf, isEmpty_iff.mp hexi.2⟩
  have hids : ((requestQueue.contents ++ (batch ++ []) ++ inflight).map QueuedIoRequest.requestId).Subperm
      ((s.requestQueue.contents ++ s.inflight).map QueuedIoRequest.requestId) := by
    rw [map_append] at hqueueIds
    rw [append_nil, map_append, map_append, map_append]
    refine hqueueIds.append ?_
    exact (sublist_append_right _ _).subperm.trans hinflightIds.subperm
  refine ⟨hcou, ?_, ?_, ?_, ?_, h.signalled, ?_, hwi limit h.within, ?_, ?_⟩
  · have hold := h.tokens
    unfold outstanding at hold ⊢
    rw [hwa, hw] at hold
    refine Perm.trans ?_ hold
    refine Perm.append_right _ ?_
    show (map _ (requestQueue.contents ++ (batch ++ []) ++ inflight) ++ _).Perm (_ ++ [])
    rw [append_nil, append_nil]
    exact ht
  · have hold := h.ids_nodup
    rw [hwa] at hold
    obtain ⟨ids, hp, hsu⟩ := hids
    exact hp.nodup_iff.mp (hold.sublist hsu)
  · intro requestId hm
    have hold := h.ids_lt requestId
    rw [hwa] at hold
    exact hold (hids.subset hm)
  · show ([] ++ (s.accepted ++ _)).Perm ((inflight ++ []).map _)
    rw [nil_append, append_nil]
    exact (perm_append_left_iff _).mp ((backend_reaped h hw).trans hinflightIds.symm)
  · have hle := h.depth_le
    exact hd limit h.within (Nat.le_trans (Nat.le_add_right _ _) hle)
  · intro hl
    obtain ⟨hs, hc, hinf, hba⟩ := hexi hl
    refine ⟨hs, ?_⟩
    show requestQueue.contents ++ (batch ++ []) ++ inflight = []
    rw [hc, hinf, hba]
    rfl
  · intro hs _ _
    obtain ⟨hc, hba⟩ := hstopped hs
    exact ⟨fun _ => ⟨hc, hba, rfl⟩, fun hst => absurd hst Bool.false_ne_true⟩

end FirstSection

theorem submitNext_invariant {madeProgress shouldExit : Bool} {readyResults : List ReadyResult} {queued : QueuedIoRequest}
    {dispatchBatch : List QueuedIoRequest} {dispatchResults : List DispatchResult}
    (h : Invariant limit s)
    (hw : s.worker = .dispatching madeProgress shouldExit readyResults (queued :: dispatchBatch) dispatchResults)
    (status : BackendSubmitStatus) :
    Invariant limit (s.submitNext status madeProgress shouldExit readyResults queued dispatchBatch dispatchResults) := by
  rw [← withWorker_eq hw] at h ⊢
  have hh : (dispatchBatch ++ (dispatchResults ++ [DispatchResult.mk queued status]).map DispatchResult.queued).Perm
      (queued :: dispatchBatch ++ dispatchResults.map DispatchResult.queued) := by
    rw [map_append, ← append_assoc]
    exact perm_append_singleton _ _
  have hwa : (submitNext
      { s with worker := .dispatching madeProgress shouldExit readyResults (queued :: dispatchBatch) dispatchResults }
      status madeProgress shouldExit readyResults queued dispatchBatch dispatchResults).waiting.Perm
      (waiting
        { s with worker := .dispatching madeProgress shouldExit readyResults (queued :: dispatchBatch) dispatchResults }) :=
    (hh.append_left _).append_right _
  refine ⟨h.counted, ?_, ?_, ?_, ?_, h.signalled, ?_, h.within, ?_, ?_⟩
  · exact (((hwa.map _).append_right _).append_right _).trans h.tokens
  · exact (hwa.map _).nodup_iff.mpr h.ids_nodup
  · exact fun requestId hm => h.ids_lt requestId ((hwa.map _).subset hm)
  · have hold := h.backend
    change (s.accepted ++ s.completed.map requestId).Perm
      ((s.inflight ++ answered .submitted dispatchResults).map _) at hold
    show ((if status = BackendSubmitStatus.submitted then s.accepted ++ [queued.requestId] else s.accepted) ++
      s.completed.map requestId).Perm ((s.inflight ++ answered .submitted (dispatchResults ++ [DispatchResult.mk queued status])).map _)
    rw [answered_concat]
    split_ifs with hst
    · rw [perm_iff_count]
      intro requestId
      have hc := hold.count_eq requestId
      simp only [count_append, map_append, map_cons, map_nil] at hc ⊢
      omega
    · rw [append_nil]
      exact hold
  · have hle := h.depth_le
    change s.inflight.length + ((queued :: dispatchBatch).length + dispatchResults.length) ≤ limit at hle
    show s.inflight.length + (dispatchBatch.length + (dispatchResults ++ [DispatchResult.mk queued status]).length) ≤ limit
    rw [length_append, length_singleton]
    rw [length_cons] at hle
    omega
  · intro hl
    have hn := (h.leaves hl).2
    exact absurd (append_eq_nil_iff.mp (append_eq_nil_iff.mp hn).1).2 (cons_ne_nil _ _)
  · intro hs hp hwakeup
    exact absurd ((h.seesStop hs hp hwakeup).1 rfl).2.1 (cons_ne_nil _ _)

section SecondSection

variable {madeProgress shouldExit : Bool} {readyResults : List ReadyResult} {dispatchResults : List DispatchResult}

variable (h : Invariant limit s) (hw : s.worker = .dispatching madeProgress shouldExit readyResults [] dispatchResults)
include h hw

theorem dispatchApplied_of_invariant : DispatchApplied s dispatchResults false readyResults
      (s.applyDispatchResultsLocked dispatchResults false readyResults) := by
  refine applyDispatchResultsLocked_spec dispatchResults _ false readyResults h.counted ?_
  have hids := h.ids_nodup
  rw [waiting, hw] at hids
  rw [append_assoc] at hids
  exact (perm_append_comm.map _).nodup_iff.mp (hids.sublist ((sublist_append_right _ _).map _))

/-- The second section in its parts: what was applied to queue and registry, and what is ready. -/
theorem exists_dispatchApplied : ∃ progress ready inflight requestQueue,
    s.applyDispatchResultsLocked dispatchResults false readyResults = (progress, ready, { s with inflight, requestQueue }) ∧
      DispatchApplied s dispatchResults false readyResults (progress, ready, { s with inflight, requestQueue }) := by
  have happlied := dispatchApplied_of_invariant h hw
  generalize s.applyDispatchResultsLocked dispatchResults false readyResults = applied at happlied
  exact ⟨applied.1, applied.2.1, _, _, by rw [← happlied.frame], by rw [← happlied.frame]; exact happlied⟩

/-- The second locked section keeps the invariant. -/
theorem secondSection_invariant :
    Invariant limit (s.secondSection madeProgress shouldExit readyResults dispatchResults) := by
  rw [← withWorker_eq hw] at h ⊢
  obtain ⟨dispatchMadeProgress, ready, inflight, requestQueue, happlied, -, -, hre, hinf, hc, hcou⟩ :=
    exists_dispatchApplied h rfl
  rw [secondSection, happlied]
  dsimp only at hre hinf hc hcou ⊢
  have hwa : (requestQueue.contents ++ inflight ++ answered .failed dispatchResults).Perm
      (s.requestQueue.contents ++ dispatchResults.map DispatchResult.queued ++ s.inflight) := by
    rw [perm_iff_count]
    intro q
    have ha := (answered_perm dispatchResults).count_eq q
    have hq := hc.count_eq q
    simp only [hinf, count_append] at ha hq ⊢
    omega
  have hids : ((requestQueue.contents ++ inflight).map QueuedIoRequest.requestId).Subperm
      ((s.requestQueue.contents ++ dispatchResults.map DispatchResult.queued ++ s.inflight).map QueuedIoRequest.requestId) :=
    ((sublist_append_left _ _).map _).subperm.trans (hwa.map _).subperm
  have hn : ∀ w : Worker, w.dispatchBatch = [] → w.dispatchResults = [] →
      waiting { s with inflight := inflight, requestQueue := requestQueue, worker := w } =
        requestQueue.contents ++ inflight := by
    intro w hb hr
    unfold waiting
    rw [hb, hr, map_nil, append_nil, append_nil]
  -- a worker that leaves had nothing to dispatch, or finds everything drained now
  have hl : (shouldExit || (s.stopping && drainedLocked { s with
      inflight := inflight
      requestQueue := requestQueue
      worker := .dispatching madeProgress shouldExit readyResults [] dispatchResults })) = true →
      s.stopping = true ∧ requestQueue.contents = [] ∧ inflight = [] := by
    intro hexi
    rw [Bool.or_eq_true, Bool.and_eq_true] at hexi
    rcases hexi with hexi | ⟨hs, hd⟩
    · obtain ⟨hs, hni⟩ := h.leaves hexi
      change s.requestQueue.contents ++ dispatchResults.map DispatchResult.queued ++ s.inflight = [] at hni
      rw [hni] at hwa
      have hem := (append_eq_nil_iff.mp hwa.eq_nil).1
      exact ⟨hs, append_eq_nil_iff.mp hem⟩
    · exact ⟨hs, eq_nil_of_drained hcou hd⟩
  refine ⟨hcou, ?_, ?_, ?_, ?_, h.signalled, ?_, h.within, ?_, ?_⟩
  · refine Perm.trans (Perm.append_right _ ?_) h.tokens
    unfold outstanding
    rw [hn _ rfl rfl]
    show (_ ++ ready.map ReadyResult.token).Perm
      ((s.requestQueue.contents ++ dispatchResults.map DispatchResult.queued ++ s.inflight).map _ ++ _)
    have ht := hwa.map QueuedIoRequest.token
    have hf : ready.map ReadyResult.token =
        readyResults.map ReadyResult.token ++ (answered .failed dispatchResults).map QueuedIoRequest.token := by
      rw [hre, map_append, map_map]
      rfl
    rw [hf, perm_iff_count]
    intro token
    have hco := ht.count_eq token
    simp only [count_append, map_append] at hco ⊢
    change _ = _ + count token (readyResults.map ReadyResult.token)
    omega
  · rw [hn _ rfl rfl]
    obtain ⟨ids, hp, hsu⟩ := hids
    exact hp.nodup_iff.mp (h.ids_nodup.sublist hsu)
  · rw [hn _ rfl rfl]
    exact fun requestId hm => h.ids_lt requestId (hids.subset hm)
  · have hold := h.backend
    show ([] ++ _).Perm ((inflight ++ []).map _)
    rw [append_nil, hinf]
    exact hold
  · have hle := h.depth_le
    have hsp := (answered_perm dispatchResults).length_eq
    show inflight.length + 0 ≤ limit
    change s.inflight.length + (0 + dispatchResults.length) ≤ limit at hle
    rw [hinf, length_append]
    simp only [length_append, length_map] at hsp
    omega
  · intro hlea
    obtain ⟨hs, hc, hinf⟩ := hl hlea
    rw [hn _ rfl rfl, hc, hinf]
    exact ⟨hs, rfl⟩
  · intro hs hpe hwakeup
    obtain ⟨hold, -, hr⟩ := (h.seesStop hs hpe hwakeup).1 rfl
    change dispatchResults = [] at hr
    rw [hold, hr] at hc
    refine ⟨fun _ => ⟨hc.eq_nil, rfl, rfl⟩, fun hst hni => ?_⟩
    have hd : drainedLocked { s with
        inflight := inflight
        requestQueue := requestQueue
        worker := .dispatching madeProgress shouldExit readyResults [] dispatchResults } = true :=
      drained_of_eq_nil hcou hc.eq_nil hni
    rw [hd, show s.stopping = true from hs, Bool.and_true, Bool.or_true] at hst
    exact absurd hst Bool.false_ne_true

end SecondSection

theorem fulfill_invariant {shouldExit more : Bool} {ready : ReadyResult} {readyResults : List ReadyResult}
    (h : Invariant limit { s with worker := .fulfilling shouldExit more (ready :: readyResults) }) :
    Invariant limit
      { s with worker := .fulfilling shouldExit more readyResults, fulfilled := s.fulfilled ++ [ready] } := by
  refine { h with tokens := ?_ }
  refine Perm.trans ?_ h.tokens
  show (((s.requestQueue.contents ++ [] ++ s.inflight).map QueuedIoRequest.token ++ readyResults.map ReadyResult.token) ++
      (s.fulfilled ++ [ready]).map ReadyResult.token).Perm
    (((s.requestQueue.contents ++ [] ++ s.inflight).map QueuedIoRequest.token ++
      (ready :: readyResults).map ReadyResult.token) ++ s.fulfilled.map ReadyResult.token)
  rw [perm_iff_count]
  intro token
  simp only [count_append, map_append, map_cons, map_nil, count_cons, count_nil]
  omega

theorem finishRound_invariant {shouldExit more : Bool}
    (h : Invariant limit { s with worker := .fulfilling shouldExit more [] }) :
    Invariant limit { s with worker := if shouldExit then .exited else if more then .start else .sleeping } := by
  cases shouldExit with
  | true =>
    exact { h with seesStop := fun _ _ _ => ⟨nofun, nofun⟩ }
  | false =>
    cases more with
    | true =>
      exact { h with seesStop := fun _ _ _ => ⟨nofun, nofun⟩ }
    | false =>
      exact { h with }

theorem wake_invariant (h : Invariant limit { s with worker := .sleeping }) : Invariant limit { s with worker := .start } :=
  { h with seesStop := fun _ _ _ => ⟨nofun, nofun⟩ }

/-- A step of the worker keeps the invariant. -/
theorem work_invariant (h : Invariant limit s) (env : Surroundings) : Invariant limit (s.work env) := by
  have ha : ∀ {w}, s.worker = w → Invariant limit { s with worker := w } := fun hw => (withWorker_eq hw).symm ▸ h
  unfold work
  split
  case h_1 hw => exact drainWakeup_invariant (ha hw)
  case h_2 hw => exact reap_invariant (ha hw)
  case h_3 completions hw => exact firstSection_invariant h hw env.samples
  case h_4 hw => exact submitNext_invariant h hw env.status
  case h_5 hw => exact secondSection_invariant h hw
  case h_6 hw => exact fulfill_invariant (ha hw)
  case h_7 hw => exact finishRound_invariant (ha hw)
  case h_8 hw =>
    split
    · exact wake_invariant (ha hw)
    · exact h
  case h_9 => exact h

/-- Every step of the system keeps the invariant. -/
theorem step_invariant (h : Invariant limit s) (step : Step) : Invariant limit (s.step step) := by
  cases step with
  | submit request => exact submit_invariant h request
  | stop => exact stop_invariant h
  | notifyWorker => exact notifyWorker_invariant h
  | complete compl => exact completeRequest_invariant h compl
  | work env => exact work_invariant h env

end Bolt.DiskIo
