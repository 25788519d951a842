import Bolt.BufferManager.DiskIo
import Mathlib.Data.List.Perm.Lattice

/-!
# What the operations of the scheduler do to the requests

Each request carries its promise and its buffer. An operation only moves requests: what
it takes from one place it puts into another, with the buffer the request came with.
-/

namespace Bolt.DiskIo

open List IoRequestQueue DepthController DispatchResult

variable {q : IoRequestQueue} {c : DepthController} {limit : ℕ}

def QueuedIoRequest.token (q : QueuedIoRequest) : ℕ × IoBuffer := (q.promise, q.request.buffer)

def ReadyResult.token (r : ReadyResult) : ℕ × IoBuffer := (r.promise, r.result.buffer)

def IoRequestQueue.Counted (q : IoRequestQueue) : Prop := q.totalQueued = q.contents.length

theorem not_hasRequests_iff (hq : q.Counted) : q.hasRequests = false ↔ q.contents = [] := by
  unfold hasRequests
  rw [decide_eq_false_iff_not, hq, Nat.not_lt, Nat.le_zero, length_eq_zero_iff]

theorem contents_insert {queues queues' : Fin 3 → List QueuedIoRequest} (priority : Fin 3) {request : QueuedIoRequest}
    (ho : ∀ i, i ≠ priority → queues' i = queues i) (hp : (queues' priority).Perm (request :: queues priority)) :
    (queues' 0 ++ queues' 1 ++ queues' 2).Perm (request :: (queues 0 ++ queues 1 ++ queues 2)) := by
  rw [perm_iff_count]
  intro q
  have hc := hp.count_eq q
  rw [count_cons] at hc
  simp only [count_append, count_cons]
  match priority with
  | 0 => rw [ho 1 (by decide), ho 2 (by decide)]; omega
  | 1 => rw [ho 0 (by decide), ho 2 (by decide)]; omega
  | 2 => rw [ho 0 (by decide), ho 1 (by decide)]; omega

theorem enqueue_contents (q : IoRequestQueue) (request : QueuedIoRequest) :
    (q.enqueue request).contents.Perm (request :: q.contents) := by
  refine contents_insert (priorityIndex request.request.priority) (fun i hi => if_neg hi) ?_
  show (if _ then _ else _ : List QueuedIoRequest).Perm _
  rw [if_pos rfl]
  exact perm_append_singleton _ _

theorem enqueue_counted (hq : q.Counted) (request : QueuedIoRequest) : (q.enqueue request).Counted := by
  have hl := (enqueue_contents q request).length_eq
  rw [length_cons] at hl
  rw [Counted, hl, ← hq]
  rfl

theorem returnToFront_contents (q : IoRequestQueue) (request : QueuedIoRequest) :
    (q.returnToFront request).contents.Perm (request :: q.contents) := by
  refine contents_insert (priorityIndex request.request.priority) (fun i hi => if_neg hi) ?_
  show (if _ then _ else _ : List QueuedIoRequest).Perm _
  rw [if_pos rfl]

theorem returnToFront_counted (hq : q.Counted) (request : QueuedIoRequest) : (q.returnToFront request).Counted := by
  have hl := (returnToFront_contents q request).length_eq
  rw [length_cons] at hl
  rw [Counted, hl, ← hq]
  rfl

/-- What `collect` takes was in the queue, and the rest still is. -/
structure Collected (q : IoRequestQueue) (maxCount : ℕ) (batch : List QueuedIoRequest) (q' : IoRequestQueue) : Prop where
  contents : (batch ++ q'.contents).Perm q.contents
  length_le : batch.length ≤ maxCount
  counted : q'.Counted

/-- A batch takes at most so many requests off the queues. -/
theorem collect_spec (maxCount : ℕ) : ∀ q : IoRequestQueue, q.Counted →
    Collected q maxCount (q.collect maxCount).1 (q.collect maxCount).2 := by
  induction maxCount with
  | zero => exact fun q hq => ⟨.refl _, Nat.le_refl _, hq⟩
  | succ maxCount ih =>
    intro q hq
    unfold collect
    split
    · dsimp only
      split
      · exact ⟨.refl _, Nat.zero_le _, hq⟩
      · rename_i priority _
        split
        · exact ⟨.refl _, Nat.zero_le _, hq⟩
        · rename_i request queue hqu
          -- the queue of the picked priority loses its front, the others stay
          generalize hr : mk _ _ _ = rest
          have hc : q.contents.Perm (request :: rest.contents) := by
            refine contents_insert priority (fun i hi => ?_) ?_
            · rw [← hr]; exact (if_neg hi).symm
            · rw [← hr, hqu]
              show (request :: queue).Perm (request :: if _ then _ else _)
              rw [if_pos rfl]
          have hco : rest.Counted := by
            have hl := hc.length_eq
            rw [length_cons, ← hq] at hl
            rw [← hr] at hl ⊢
            show q.totalQueued - 1 = _
            omega
          obtain ⟨hb, hle, hco'⟩ := ih rest hco
          exact ⟨(hb.cons request).trans hc.symm, Nat.succ_le_succ hle, hco'⟩
    · exact ⟨.refl _, Nat.zero_le _, hq⟩

/-! ## The in-flight registry -/

theorem take_of_mem {r : InflightRegistry} {requestId : ℕ} (hid : requestId ∈ r.map QueuedIoRequest.requestId) :
    ∃ request, (r.take requestId).1 = some request ∧ request.requestId = requestId ∧
      r.Perm (request :: (r.take requestId).2) := by
  obtain ⟨q, hq, hqid⟩ := mem_map.mp hid
  obtain ⟨request, hf⟩ : ∃ request, r.find? (fun q => q.requestId == requestId) = some request := by
    rw [← Option.isSome_iff_exists, find?_isSome]
    exact ⟨q, hq, by simpa using hqid⟩
  have hr : request.requestId = requestId := by simpa using find?_some hf
  refine ⟨request, ?_, hr, ?_⟩
  · simp only [InflightRegistry.take, hf]
  · simp only [InflightRegistry.take, hf]
    obtain ⟨_, before, after, hs, hb⟩ := find?_eq_some_iff_append.mp hf
    rw [hs, eraseP_append_right _ (by simpa using hb), eraseP_cons_of_pos (by simpa using hr)]
    exact perm_middle

theorem add_of_not_mem {r : InflightRegistry} {request : QueuedIoRequest}
    (hid : request.requestId ∉ r.map QueuedIoRequest.requestId) : r.add request = r ++ [request] := by
  refine if_neg fun ha => hid ?_
  obtain ⟨q, hq, hqid⟩ := any_eq_true.mp ha
  exact mem_map.mpr ⟨q, hq, by simpa using hqid⟩

/-- The current depth, and the one a failed probe returns to, stay below the limit. -/
def DepthController.Within (limit : ℕ) : DepthController → Prop
  | .fixed depth => depth = limit
  | .adaptive c => c.maxDepth = limit ∧ c.currentDepth ≤ limit ∧ c.bestDepth ≤ limit

theorem currentDepth_le (hc : c.Within limit) : c.currentDepth ≤ limit := by
  cases c with
  | fixed depth => exact Nat.le_of_eq hc
  | adaptive c => exact hc.2.1

theorem scheduleProbe_within {c : AdaptiveDepthController} (hc : (adaptive c).Within limit) :
    (adaptive c.scheduleProbe).Within limit := by
  obtain ⟨hm, hcu, hb⟩ := hc
  refine ⟨hm, ?_, hb⟩
  show c.currentDepth + min c.increaseStep (c.maxDepth - c.currentDepth) ≤ limit
  omega

/-- A control window keeps the depth within its limits. -/
theorem onWindow_within {c : AdaptiveDepthController} (hc : (adaptive c).Within limit)
    (sample : ThroughputSample) (ha : Bool) :
    (adaptive (c.onWindow sample ha)).Within limit := by
  obtain ⟨hm, hcu, hb⟩ := hc
  unfold AdaptiveDepthController.onWindow
  split
  · exact ⟨hm, hcu, hb⟩
  split
  · exact ⟨hm, hcu, hb⟩
  dsimp only
  split
  · exact ⟨hm, hcu, hb⟩
  split
  · exact ⟨hm, hcu, hb⟩
  split
  · exact scheduleProbe_within ⟨hm, hcu, hcu⟩
  split
  · exact scheduleProbe_within ⟨hm, hcu, hcu⟩
  split
  · exact scheduleProbe_within ⟨hm, hcu, hb⟩
  · exact ⟨hm, hb, hb⟩

theorem onCompletion_within (hc : c.Within limit) (ha : Bool) (sample : Option ThroughputSample) :
    (c.onCompletion ha sample).Within limit := by
  cases c with
  | fixed depth => exact hc
  | adaptive c =>
    cases sample with
    | none => exact hc
    | some sample => exact onWindow_within hc sample ha

/-! ## The locked sections -/

/-- `applyCompletionsLocked` turns each completed request into a ready result with its buffer. -/
structure CompletionsApplied (s : Scheduler) (completions : List BackendCompletion) (readyResults : List ReadyResult)
    (out : List ReadyResult × Scheduler) : Prop where
  frame : out.2 = { s with inflight := out.2.inflight, depthController := out.2.depthController }
  ready : ∃ new, out.1 = readyResults ++ new ∧ new.length = completions.length ∧
    (new.map ReadyResult.token ++ out.2.inflight.map QueuedIoRequest.token).Perm (s.inflight.map QueuedIoRequest.token)
  ids : (completions.map BackendCompletion.requestId ++ out.2.inflight.map QueuedIoRequest.requestId).Perm
    (s.inflight.map QueuedIoRequest.requestId)
  within : ∀ limit, s.depthController.Within limit → out.2.depthController.Within limit

/-- Every completed request leaves the registry with its result. -/
theorem applyCompletionsLocked_spec (samples : ℕ → Option ThroughputSample) (completions : List BackendCompletion) :
    ∀ (s : Scheduler) (readyResults : List ReadyResult) (others : List ℕ),
      (completions.map BackendCompletion.requestId ++ others).Perm (s.inflight.map QueuedIoRequest.requestId) →
      CompletionsApplied s completions readyResults (Scheduler.applyCompletionsLocked samples s completions readyResults) := by
  induction completions with
  | nil => exact fun s readyResults _ _ => ⟨rfl, ⟨[], (append_nil _).symm, rfl, .refl _⟩, .refl _, fun _ h => h⟩
  | cons compl completions ih =>
    intro s readyResults others hids
    have hm : compl.requestId ∈ s.inflight.map QueuedIoRequest.requestId := hids.subset (by simp)
    obtain ⟨request, htake, hr, hp⟩ := take_of_mem hm
    have ht := hp.map QueuedIoRequest.requestId
    rw [map_cons, hr] at ht
    unfold Scheduler.applyCompletionsLocked
    simp only [htake]
    generalize hta : (s.inflight.take compl.requestId).2 = taken at hp ht
    generalize hres : ReadyResult.mk request.promise _ = result
    have hto : result.token = request.token := by rw [← hres]; rfl
    obtain ⟨hf, ⟨new, hre, hl, htok⟩, hids', hw⟩ :=
      ih { s with
        inflight := taken
        depthController := s.depthController.onCompletion s.requestQueue.hasRequests (samples compl.requestId) }
        (readyResults ++ [result]) others (Perm.cons_inv (hids.trans ht))
    refine ⟨hf, ⟨result :: new, ?_, ?_, ?_⟩, ?_, ?_⟩
    · rw [hre, append_assoc, singleton_append]
    · rw [length_cons, length_cons, hl]
    · rw [map_cons, hto]
      exact (htok.cons request.token).trans (hp.map QueuedIoRequest.token).symm
    · exact (hids'.cons compl.requestId).trans ht.symm
    · exact fun limit hli => hw limit (onCompletion_within hli _ _)

def answered (status : BackendSubmitStatus) (results : List DispatchResult) : List QueuedIoRequest :=
  (results.filter fun dispatch => dispatch.status == status).map queued

theorem answered_cons (status : BackendSubmitStatus) (dispatch : DispatchResult) (results : List DispatchResult) :
    answered status (dispatch :: results) =
      if dispatch.status = status then dispatch.queued :: answered status results else answered status results := by
  unfold answered
  by_cases h : dispatch.status = status
  · simp [h]
  · simp [h]

theorem answered_concat (status : BackendSubmitStatus) (results : List DispatchResult) (dispatch : DispatchResult) :
    answered status (results ++ [dispatch]) =
      answered status results ++ if dispatch.status = status then [dispatch.queued] else [] := by
  unfold answered
  by_cases h : dispatch.status = status
  · simp [h]
  · simp [h]

theorem answered_perm (results : List DispatchResult) : (results.map queued).Perm
      (answered .submitted results ++ answered .retryableBusy results ++ answered .failed results) := by
  induction results with
  | nil => exact .refl _
  | cons dispatch results ih =>
    rw [perm_iff_count]
    intro q
    have hc := ih.count_eq q
    cases hs : dispatch.status <;>
      simp [answered_cons, hs, count_cons, hc] <;> omega

def submitFailure (queued : QueuedIoRequest) : ReadyResult :=
  ⟨queued.promise, { error := .backendSubmitFailed, buffer := queued.request.buffer }⟩

/-- `applyDispatchResultsLocked` puts every dispatched request where its answer sends it. -/
structure DispatchApplied (s : Scheduler) (results : List DispatchResult) (madeProgress : Bool)
    (readyResults : List ReadyResult) (out : Bool × List ReadyResult × Scheduler) : Prop where
  frame : out.2.2 = { s with inflight := out.2.2.inflight, requestQueue := out.2.2.requestQueue }
  progress : out.1 = (madeProgress || results.any fun dispatch => dispatch.status != .retryableBusy)
  ready : out.2.1 = readyResults ++ (answered .failed results).map submitFailure
  inflight : out.2.2.inflight = s.inflight ++ answered .submitted results
  contents : out.2.2.requestQueue.contents.Perm (answered .retryableBusy results ++ s.requestQueue.contents)
  counted : out.2.2.requestQueue.Counted

/-- Every request of the batch is in flight, queued again or failed. -/
theorem applyDispatchResultsLocked_spec (results : List DispatchResult) :
    ∀ (s : Scheduler) (madeProgress : Bool) (readyResults : List ReadyResult), s.requestQueue.Counted →
      ((s.inflight ++ results.map queued).map QueuedIoRequest.requestId).Nodup →
      DispatchApplied s results madeProgress readyResults
        (Scheduler.applyDispatchResultsLocked s results madeProgress readyResults) := by
  induction results with
  | nil =>
    intro s madeProgress readyResults hco _
    exact ⟨rfl, (Bool.or_false _).symm, (append_nil _).symm, (append_nil _).symm, .refl _, hco⟩
  | cons dispatch results ih =>
    intro s madeProgress readyResults hco hn
    have hr : ((s.inflight ++ results.map queued).map QueuedIoRequest.requestId).Nodup :=
      hn.sublist (((sublist_cons_self _ _).append_left _).map _)
    unfold Scheduler.applyDispatchResultsLocked
    cases hs : dispatch.status with
    | retryableBusy =>
      obtain ⟨hfr, hp, hre, hinf, hc, hc'⟩ :=
        ih { s with requestQueue := s.requestQueue.returnToFront dispatch.queued } madeProgress readyResults
          (returnToFront_counted hco _) hr
      refine ⟨hfr, ?_, ?_, ?_, ?_, hc'⟩
      · simp [hp, hs]
      · simp [hre, answered_cons, hs]
      · simp [hinf, answered_cons, hs]
      · rw [answered_cons, if_pos hs]
        exact (hc.trans ((returnToFront_contents _ _).append_left _)).trans perm_middle
    | failed =>
      show DispatchApplied s _ _ _
        (Scheduler.applyDispatchResultsLocked s results true (readyResults ++ [submitFailure dispatch.queued]))
      obtain ⟨hfr, hp, hre, hinf, hc, hc'⟩ :=
        ih s true (readyResults ++ [submitFailure dispatch.queued]) hco hr
      refine ⟨hfr, ?_, ?_, ?_, ?_, hc'⟩
      · simp [hp, hs]
      · rw [answered_cons, if_pos hs, map_cons]
        simpa using hre
      · simpa [answered_cons, hs] using hinf
      · simpa [answered_cons, hs] using hc
    | submitted =>
      have hf : dispatch.queued.requestId ∉ s.inflight.map QueuedIoRequest.requestId := by
        rw [map_append, nodup_append] at hn
        intro hm
        exact hn.2.2 _ hm dispatch.queued.requestId (by simp) rfl
      rw [add_of_not_mem hf]
      obtain ⟨hfr, hp, hre, hinf, hc, hc'⟩ :=
        ih { s with inflight := s.inflight ++ [dispatch.queued] } true readyResults hco (by simpa using hn)
      refine ⟨hfr, ?_, ?_, ?_, ?_, hc'⟩
      · simp [hp, hs]
      · simp [hre, answered_cons, hs]
      · rw [hinf, answered_cons, if_pos hs, append_assoc, singleton_append]
      · simpa [answered_cons, hs] using hc

theorem failQueuedLocked_tokens (s : Scheduler) (readyResults : List ReadyResult) :
    (s.failQueuedLocked readyResults).1.map ReadyResult.token =
      readyResults.map ReadyResult.token ++ s.requestQueue.contents.map QueuedIoRequest.token := by
  unfold Scheduler.failQueuedLocked
  rw [map_append, map_map]
  rfl

end Bolt.DiskIo
