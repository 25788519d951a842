import Bolt.BufferManager.DiskIoSharing
import Bolt.BufferManager.DiskIoInvariant

/-!
# The order of the requests under back-pressure

The requests of a priority stay in order just as long as the backend, once it has sent one
of them back, takes no other of that priority in the same round and sends none back. A batch
that is sent back as a whole leaves queues and credits as they were just when it was paid
for without a refill, with one request of each priority.
-/

namespace Bolt.DiskIo

open IoRequestQueue List DispatchResult Scheduler

/-! ## A batch that is sent back -/

/-- The priority has a request and a credit for it. -/
def IoRequestQueue.pays (q : IoRequestQueue) (i : Fin 3) : Bool :=
  !(q.queues i).isEmpty && decide (0 < q.dispatcher.deficits i)

/-- The priorities that can pay for a request, in the order of their turns. -/
def IoRequestQueue.payable (q : IoRequestQueue) : List (Fin 3) :=
  q.dispatcher.turns.filter q.pays

/-- A batch of so many requests can be undone: it is paid for with one credit of each of several
priorities, and a priority that it takes the only request from has no other credit to lose. -/
def IoRequestQueue.Restorable (q : IoRequestQueue) (maxCount : ℕ) : Prop :=
  min maxCount q.contents.length ≤ q.payable.length ∧
    ∀ i ∈ q.payable.take maxCount, (q.queues i).length = 1 → q.dispatcher.deficits i = 1

/-- Taken off and sent back as a whole, a batch leaves queues and credits as they were. -/
def IoRequestQueue.Undoes (q : IoRequestQueue) (maxCount : ℕ) : Prop :=
  let after := (q.collect maxCount).1.foldl returnToFront (q.collect maxCount).2
  after.queues = q.queues ∧ after.dispatcher.deficits = q.dispatcher.deficits

theorem pays_iff {q : IoRequestQueue} {i : Fin 3} : q.pays i = true ↔ q.queues i ≠ [] ∧ 0 < q.dispatcher.deficits i := by
  simp [pays]

theorem mem_payable {q : IoRequestQueue} {i : Fin 3} :
    i ∈ q.payable ↔ q.queues i ≠ [] ∧ 0 < q.dispatcher.deficits i := by
  have hall : ∀ c i : Fin 3, i ∈ [c, c + 1, c + 2] := by decide
  rw [payable, DrrDispatcher.turns, mem_filter, and_iff_right (hall _ i), pays_iff]

theorem payable_nodup (q : IoRequestQueue) : q.payable.Nodup := by
  have hall : ∀ c : Fin 3, [c, c + 1, c + 2].Nodup := by decide
  exact (hall q.dispatcher.nextPriorityCursor).filter q.pays

section Payable

variable {q : IoRequestQueue} (hkept : q.Kept)
include hkept

/-- A priority that has no request or no credit is passed over. -/
theorem pickLoop_passes (rounds : ℕ) {cursor : Fin 3} (hno : q.queues cursor = [] ∨ q.dispatcher.deficits cursor ≤ 0) :
    ({ q.dispatcher with nextPriorityCursor := cursor } : DrrDispatcher).pickLoop q.queueSizes (rounds + 1) =
      ({ q.dispatcher with nextPriorityCursor := cursor + 1 } : DrrDispatcher).pickLoop q.queueSizes rounds := by
  have hreset : (fun i => if i = cursor then 0 else q.dispatcher.deficits i) = q.dispatcher.deficits ∨
      q.queues cursor ≠ [] := by
    by_cases hempty : q.queues cursor = []
    · refine .inl (funext fun i => ?_)
      split_ifs with hi
      · rw [hi, hkept.empty _ hempty]
      · rfl
    · exact .inr hempty
  rw [DrrDispatcher.pickLoop]
  by_cases hempty : q.queues cursor = []
  · rw [if_pos (by simp [queueSizes, hempty]), DrrDispatcher.reset, hreset.resolve_right (not_not_intro hempty)]
  · rw [if_neg (by simpa [queueSizes] using hempty), if_pos (hno.resolve_left hempty)]

omit hkept in
theorem pickLoop_takes (rounds : ℕ) {cursor : Fin 3} (hrequest : q.queues cursor ≠ [])
    (hcredit : 0 < q.dispatcher.deficits cursor) :
    ({ q.dispatcher with nextPriorityCursor := cursor } : DrrDispatcher).pickLoop q.queueSizes (rounds + 1) =
      (some cursor, { q.dispatcher with
        deficits := fun i => if i = cursor then q.dispatcher.deficits i - 1 else q.dispatcher.deficits i
        nextPriorityCursor := cursor + 1 }) := by
  rw [DrrDispatcher.pickLoop, if_neg (by simpa [queueSizes] using hrequest), if_neg (by simpa using hcredit)]

/-- The first of the payable priorities is picked, and the turn passes to the next one. -/
theorem pick_payable {p : Fin 3} {rest : List (Fin 3)} (hpayable : q.payable = p :: rest) :
    q.dispatcher.pick q.queueSizes = (some p, { q.dispatcher with
      deficits := fun i => if i = p then q.dispatcher.deficits i - 1 else q.dispatcher.deficits i
      nextPriorityCursor := p + 1 }) ∧
    [p + 1, p + 2].filter q.pays = rest := by
  obtain ⟨hrequest, hcredit⟩ := mem_payable.mp (hpayable ▸ mem_cons_self : p ∈ q.payable)
  have hdispatchable : q.dispatcher.hasDispatchableDeficit q.queueSizes = true := by
    rw [DrrDispatcher.hasDispatchableDeficit, any_eq_true]
    exact ⟨p, mem_finRange p, by simpa [queueSizes, length_pos_iff, hcredit] using hrequest⟩
  have hpasses : ∀ {i}, ¬q.pays i = true → q.queues i = [] ∨ q.dispatcher.deficits i ≤ 0 := by
    intro i hno
    rw [pays_iff, not_and_or, not_not, Int.not_lt] at hno
    exact hno
  rw [DrrDispatcher.pick, if_pos hdispatchable]
  change DrrDispatcher.pickLoop q.queueSizes 3
    { q.dispatcher with nextPriorityCursor := q.dispatcher.nextPriorityCursor } = _ ∧ _
  unfold payable DrrDispatcher.turns at hpayable
  generalize q.dispatcher.nextPriorityCursor = cursor at hpayable ⊢
  obtain ⟨htwo, hback, hzero, hone⟩ :=
    (by decide : ∀ c : Fin 3, c + 1 + 1 = c + 2 ∧ c + 1 + 2 = c ∧ c + 2 + 1 = c ∧ c + 2 + 2 = c + 1) cursor
  -- the priorities before the first payable one are passed over
  by_cases h0 : q.pays cursor = true
  · rw [filter_cons_of_pos h0] at hpayable
    obtain ⟨rfl, hrest⟩ := cons.inj hpayable
    exact ⟨pickLoop_takes 2 hrequest hcredit, hrest⟩
  rw [filter_cons_of_neg h0] at hpayable
  rw [pickLoop_passes hkept 2 (hpasses h0)]
  by_cases h1 : q.pays (cursor + 1) = true
  · rw [filter_cons_of_pos h1] at hpayable
    obtain ⟨rfl, hrest⟩ := cons.inj hpayable
    refine ⟨pickLoop_takes 1 hrequest hcredit, ?_⟩
    rw [← hrest, htwo, hback, filter_cons, filter_cons_of_neg h0, filter_cons]
  rw [filter_cons_of_neg h1] at hpayable
  rw [pickLoop_passes hkept 1 (hpasses h1), htwo]
  by_cases h2 : q.pays (cursor + 2) = true
  · rw [filter_cons_of_pos h2] at hpayable
    obtain ⟨rfl, hrest⟩ := cons.inj hpayable
    refine ⟨pickLoop_takes 0 hrequest hcredit, ?_⟩
    rw [← hrest, hzero, hone, filter_cons_of_neg h0, filter_cons_of_neg h1]
  · rw [filter_cons_of_neg h2] at hpayable
    cases hpayable

end Payable

section Batch

variable {weights : Fin 3 → ℕ} {q : IoRequestQueue} (hq : Shared weights q)
include hq

/-- The batch begins with the payable priorities in turn. -/
theorem collect_payable (maxCount : ℕ) : ∃ more,
    (q.collect maxCount).1.map (fun r => priorityIndex r.request.priority) = q.payable.take maxCount ++ more := by
  induction maxCount generalizing q with
  | zero => exact ⟨[], rfl⟩
  | succ maxCount ih =>
    cases hpayable : q.payable with
    | nil => exact ⟨_, rfl⟩
    | cons p rest =>
      obtain ⟨hpick, hrest⟩ := pick_payable hq.kept hpayable
      obtain ⟨hrequest, hcredit⟩ := mem_payable.mp (hpayable ▸ mem_cons_self : p ∈ q.payable)
      obtain ⟨request, queue, hqueue⟩ := exists_cons_of_ne_nil hrequest
      obtain ⟨hcollect, hleft⟩ := collect_succ hq.counted hpick hqueue maxCount
      have hshared : Shared weights (q.collect 1).2 := by
        refine ⟨(taken_collect hq.kept 1).kept, (collect_spec 1 q hq.counted).counted, ?_⟩
        rw [hleft]
        cases queue <;> exact hq.weights
      -- the turn has passed to the others, so they come first
      have hnext : ∃ last, (q.collect 1).2.payable = rest ++ last := by
        have hsame : ∀ i, i ≠ p → (q.collect 1).2.pays i = q.pays i := by
          intro i hi
          rw [hleft]
          cases queue <;> simp [pays, DrrDispatcher.reset, hi]
        have hcursor : (q.collect 1).2.dispatcher.nextPriorityCursor = p + 1 := by
          rw [hleft]
          cases queue <;> rfl
        obtain ⟨htwo, hback, hne, hne'⟩ :=
          (by decide : ∀ p : Fin 3, p + 1 + 1 = p + 2 ∧ p + 1 + 2 = p ∧ p + 1 ≠ p ∧ p + 2 ≠ p) p
        refine ⟨[p].filter (q.collect 1).2.pays, ?_⟩
        rw [payable, DrrDispatcher.turns, hcursor, htwo, hback, ← hrest,
          show [p + 1, p + 2, p] = [p + 1, p + 2] ++ [p] from rfl, filter_append]
        congr 1
        simp only [filter_cons, hsame _ hne, hsame _ hne', filter_nil]
      obtain ⟨last, hlast⟩ := hnext
      obtain ⟨more, hmore⟩ := ih hshared
      refine ⟨last.take (maxCount - rest.length) ++ more, ?_⟩
      rw [hcollect, map_cons, hmore, hlast, take_append, hq.kept.filed p request (hqueue ▸ mem_cons_self), take_succ_cons,
        cons_append, append_assoc]

/-- With weights for all priorities a batch takes as much as it may. -/
theorem length_collect (hpos : ∀ i, 0 < weights i) (maxCount : ℕ) :
    (q.collect maxCount).1.length = min maxCount q.contents.length := by
  induction maxCount generalizing q with
  | zero => simp [collect]
  | succ maxCount ih =>
    by_cases hnone : ∀ i, q.queues i = []
    · have hcontents : q.contents = [] := by simp [contents, hnone]
      rw [collect, (not_hasRequests_iff hq.counted).mpr hcontents, hcontents]
      simp
    · obtain ⟨i, hi⟩ := not_forall.mp hnone
      obtain ⟨p, d, hpick, hp, -⟩ := hq.pick hpos hi
      obtain ⟨request, queue, hqueue⟩ := exists_cons_of_ne_nil hp
      obtain ⟨-, -, -, hshared, -⟩ := hq.collect hpos hi
      have hone : (q.collect 1).1.length = 1 := by
        rw [(collect_succ hq.counted hpick hqueue 0).1]
        rfl
      have hlength := (collect_spec 1 q hq.counted).contents.length_eq
      rw [length_append, hone] at hlength
      rw [(collect_succ hq.counted hpick hqueue maxCount).1, length_cons, ih hshared]
      omega

end Batch

theorem ofPriority_append (i : Fin 3) (requests others : List QueuedIoRequest) :
    ofPriority i (requests ++ others) = ofPriority i requests ++ ofPriority i others := filter_append ..

theorem length_ofPriority (i : Fin 3) (requests : List QueuedIoRequest) : (ofPriority i requests).length =
    (requests.map fun r => priorityIndex r.request.priority).count i := by
  rw [ofPriority, ← countP_eq_length_filter, count, countP_map]
  refine countP_congr fun r _ => ?_
  simp

theorem reverse_eq_iff_length_le_one {α : Type} {l : List α} (hnodup : l.Nodup) : l.reverse = l ↔ l.length ≤ 1 := by
  match l with
  | [] => simp
  | [a] => simp
  | a :: b :: rest =>
    refine iff_of_false (fun heq => ?_) (by simp)
    -- the first element would also be the last
    have hlast : (b :: rest).getLast? = some a := by
      have hla := congrArg getLast? heq
      rwa [reverse_cons, getLast?_concat, getLast?_cons_cons, eq_comm] at hla
    exact (nodup_cons.mp hnodup).1 (mem_of_getLast? hlast)

theorem sentBack_iff {weights : Fin 3 → ℕ} {q : IoRequestQueue} (hq : Shared weights q) (hpos : ∀ i, 0 < weights i)
    (hnodup : ∀ i, (q.queues i).Nodup) (maxCount : ℕ) : q.Undoes maxCount ↔ q.Restorable maxCount := by
  have htaken := taken_collect hq.kept maxCount
  have hafter := foldl_returnToFront (q.collect maxCount).1 (q.collect maxCount).2
  obtain ⟨more, hmore⟩ := collect_payable hq maxCount
  have hlength := length_collect hq hpos maxCount
  rw [Undoes]
  generalize (q.collect maxCount).1 = batch at htaken hafter hmore hlength ⊢
  have hcount := fun i => length_ofPriority i batch
  have hundone : ∀ i, (batch.foldl returnToFront (q.collect maxCount).2).queues i = q.queues i ↔
      (ofPriority i batch).length ≤ 1 := by
    intro i
    have hdistinct : (ofPriority i batch).Nodup := Nodup.of_append_left (htaken.queues i ▸ hnodup i)
    rw [(hafter i).1, ← htaken.queues i, append_cancel_right_eq]
    exact reverse_eq_iff_length_le_one hdistinct
  rw [funext_iff, funext_iff, forall_congr' hundone]
  have hcredits : (∀ i, (batch.foldl returnToFront (q.collect maxCount).2).dispatcher.deficits i =
      q.dispatcher.deficits i) ↔ Refundable q batch := by
    rw [← htaken.credits]
    exact forall_congr' fun i => by rw [(hafter i).2]
  rw [hcredits]
  rw [← length_map fun r => priorityIndex r.request.priority] at hlength
  generalize (batch.map fun r => priorityIndex r.request.priority) = turns at hmore hlength hcount
  have hqueued : ∀ i ∈ turns, q.queues i ≠ [] := by
    intro i hi hempty
    have hnil := (append_eq_nil_iff.mp ((htaken.queues i).trans hempty)).1
    have hcounted := hcount i
    rw [hnil, length_nil] at hcounted
    exact absurd (count_pos_iff.mpr hi) (by omega)
  constructor
  · rintro ⟨hsingle, hpaid⟩
    have hturns : turns.Nodup := nodup_iff_count_le_one.mpr fun i => hcount i ▸ hsingle i
    have hpayable : turns ⊆ q.payable := by
      intro i hi
      have hle := (hpaid i).1
      have hturn := count_pos_iff.mpr hi
      rw [hcount] at hle
      exact mem_payable.mpr ⟨hqueued i hi, by omega⟩
    refine ⟨hlength ▸ (subperm_of_subset hturns hpayable).length_le, fun i hi hone => ?_⟩
    have hturn : 0 < turns.count i := count_pos_iff.mpr (hmore ▸ mem_append_left _ hi)
    have hlen := congrArg length (htaken.queues i)
    rw [← hcount] at hturn
    rw [length_append, hone] at hlen
    have hall : ofPriority i batch = q.queues i := by
      have hleft : (q.collect maxCount).2.queues i = [] := length_eq_zero_iff.mp (by omega)
      rw [← htaken.queues i, hleft, append_nil]
    rw [(hpaid i).2 (length_pos_iff.mp hturn) hall, hall, hone]
    rfl
  · rintro ⟨hle, hlast⟩
    have hnomore : more = [] := by
      have hlen := congrArg length hmore
      rw [length_append, length_take, hlength] at hlen
      exact length_eq_zero_iff.mp (by omega)
    rw [hnomore, append_nil] at hmore
    have hturns : turns.Nodup := hmore ▸ (payable_nodup q).sublist (take_sublist _ _)
    have hsingle : ∀ i, turns.count i ≤ 1 := nodup_iff_count_le_one.mp hturns
    refine ⟨fun i => hcount i ▸ hsingle i, fun i => ⟨?_, fun hne hall => ?_⟩⟩
    · rw [hcount]
      by_cases hi : i ∈ turns
      · have hcredit := (mem_payable.mp (mem_of_mem_take (hmore ▸ hi))).2
        have hone := hsingle i
        omega
      · rw [count_eq_zero.mpr hi]
        exact hq.kept.nonneg i
    · have hone : (ofPriority i batch).length = 1 :=
        Nat.le_antisymm (hcount i ▸ hsingle i) (length_pos_iff.mpr hne)
      have hi : i ∈ turns := count_pos_iff.mp (by rw [← hcount, hone]; exact Nat.one_pos)
      rw [hlast i (hmore ▸ hi) (hall ▸ hone), hone]
      rfl

/-! ## The order over a run -/

/-- What the backend accepts in a step: the first request of the batch, if that is its answer. -/
def Scheduler.handsOver (s : Scheduler) : Step → List QueuedIoRequest
  | .work surroundings => if surroundings.status = .submitted then s.worker.dispatchBatch.take 1 else []
  | _ => []

/-- The requests of a priority that are still to be handed over: those sent back in this round
as they will stand before the queue, the rest of the batch, and the queue. -/
def Scheduler.inTurn (s : Scheduler) (i : Fin 3) : List QueuedIoRequest :=
  (ofPriority i (answered .retryableBusy s.worker.dispatchResults)).reverse ++
    (ofPriority i s.worker.dispatchBatch ++ s.requestQueue.queues i)

/-- The requests of each priority that were handed over, and behind them those that are still to
be, are in the order in which they were queued. -/
def Scheduler.InOrder (handedOver : List QueuedIoRequest) (s : Scheduler) : Prop :=
  ∀ i, ((ofPriority i handedOver ++ s.inTurn i).map QueuedIoRequest.requestId).Pairwise (· < ·)

/-- The first request of the batch fails, or no other of its priority was sent back before in
this round. -/
def Scheduler.Spares (s : Scheduler) : Step → Prop
  | .work surroundings => surroundings.status = .failed ∨ ∀ queued ∈ s.worker.dispatchBatch.head?,
      ∀ dispatch ∈ s.worker.dispatchResults, dispatch.status = .retryableBusy →
        priorityIndex dispatch.queued.request.priority ≠ priorityIndex queued.request.priority
  | _ => True

def AlwaysInOrder (handedOver : List QueuedIoRequest) (s : Scheduler) : List Step → Prop
  | [] => s.InOrder handedOver
  | step :: steps => s.InOrder handedOver ∧ AlwaysInOrder (handedOver ++ s.handsOver step) (s.step step) steps

def AlwaysSpares (s : Scheduler) : List Step → Prop
  | [] => True
  | step :: steps => s.Spares step ∧ AlwaysSpares (s.step step) steps

/-- The queues are kept, and the next request gets a number above all others. -/
structure Numbered (handedOver : List QueuedIoRequest) (s : Scheduler) : Prop where
  kept : s.requestQueue.Kept
  lt : ∀ i, ∀ r ∈ ofPriority i handedOver ++ s.inTurn i, r.requestId < s.nextRequestId

/-- A step that hands nothing over takes requests out, or queues one behind the others. -/
structure Follows (s t : Scheduler) : Prop where
  kept : t.requestQueue.Kept
  weights : t.requestQueue.dispatcher.weights = s.requestQueue.dispatcher.weights
  next_le : s.nextRequestId ≤ t.nextRequestId
  inTurn : ∀ i, t.inTurn i <+ s.inTurn i ∨
    ∃ r, t.inTurn i = s.inTurn i ++ [r] ∧ r.requestId = s.nextRequestId ∧ s.nextRequestId < t.nextRequestId

section Steps

variable {s t : Scheduler} {handedOver : List QueuedIoRequest}

theorem Numbered.follows (h : Numbered handedOver s) (hf : Follows s t) : Numbered handedOver t := by
  refine ⟨hf.kept, fun i r hr => ?_⟩
  rcases mem_append.mp hr with hr | hr
  · exact Nat.lt_of_lt_of_le (h.lt i r (mem_append_left _ hr)) hf.next_le
  · rcases hf.inTurn i with hsub | ⟨last, heq, hid, hlt⟩
    · exact Nat.lt_of_lt_of_le (h.lt i r (mem_append_right _ (hsub.subset hr))) hf.next_le
    · rcases mem_append.mp (heq ▸ hr) with hr | hr
      · exact Nat.lt_of_lt_of_le (h.lt i r (mem_append_right _ hr)) hf.next_le
      · rw [mem_singleton.mp hr, hid]
        exact hlt

theorem InOrder.follows (ho : s.InOrder handedOver) (h : Numbered handedOver s) (hf : Follows s t) :
    t.InOrder handedOver := by
  intro i
  rcases hf.inTurn i with hsub | ⟨last, heq, hid, -⟩
  · exact (ho i).sublist ((hsub.append_left _).map _)
  · rw [heq, ← append_assoc, map_append, pairwise_append]
    refine ⟨ho i, pairwise_singleton _ _, fun a ha b hb => ?_⟩
    obtain ⟨r, hr, rfl⟩ := mem_map.mp ha
    rw [map_singleton, mem_singleton] at hb
    rw [hb, hid]
    exact h.lt i r hr

theorem follows_of_eq (hkept : s.requestQueue.Kept) (hqueue : t.requestQueue = s.requestQueue)
    (hnext : t.nextRequestId = s.nextRequestId) (hbatch : t.worker.dispatchBatch = s.worker.dispatchBatch)
    (hresults : t.worker.dispatchResults = s.worker.dispatchResults) : Follows s t := by
  refine ⟨hqueue ▸ hkept, by rw [hqueue], Nat.le_of_eq hnext.symm, fun i => .inl ?_⟩
  rw [inTurn, hqueue, hbatch, hresults]
  exact Sublist.refl _

section Kept

variable (hkept : s.requestQueue.Kept)
include hkept

theorem follows_submit (request : IoRequest) : Follows s (s.submit request) := by
  unfold submit
  split_ifs
  · exact follows_of_eq hkept rfl rfl rfl rfl
  · exact follows_of_eq hkept rfl rfl rfl rfl
  · refine ⟨(Kept.operations hkept _ 0).1, rfl, Nat.le_succ _, fun i => ?_⟩
    generalize hqueued : QueuedIoRequest.mk s.nextRequestId request s.submissions.length = queued
    by_cases hi : i = priorityIndex queued.request.priority
    · refine .inr ⟨queued, ?_, by rw [← hqueued], Nat.lt_succ_self _⟩
      simp only [inTurn, enqueue, if_pos hi, append_assoc]
    · refine .inl ?_
      simp only [inTurn, enqueue, if_neg hi]
      exact Sublist.refl _

omit hkept in
theorem applyCompletionsLocked_frame (samples : ℕ → Option ThroughputSample) (completions : List BackendCompletion) :
    ∀ (s : Scheduler) (readyResults : List ReadyResult), ∃ inflight depthController,
      (applyCompletionsLocked samples s completions readyResults).2 = { s with inflight, depthController } := by
  induction completions with
  | nil => exact fun s _ => ⟨_, _, rfl⟩
  | cons completion completions ih =>
    intro s readyResults
    unfold applyCompletionsLocked
    dsimp only
    split
    · exact ih _ _
    · exact ih _ _

theorem follows_firstSection {completions : List BackendCompletion} (hw : s.worker = .reaped completions)
    (samples : ℕ → Option ThroughputSample) : Follows s (s.firstSection samples completions) := by
  have hbefore : ∀ i, s.inTurn i = s.requestQueue.queues i := by
    intro i
    rw [inTurn, hw]
    rfl
  obtain ⟨inflight, depthController, hframe⟩ := applyCompletionsLocked_frame samples completions s []
  unfold firstSection
  generalize applyCompletionsLocked samples s completions [] = applied at hframe
  by_cases hstopping : s.stopping = true
  · simp only [if_pos hstopping, failQueuedLocked, hframe]
    exact ⟨(Kept.operations hkept ⟨0, {}, 0⟩ 0).2.2.2, rfl, Nat.le_refl _, fun i => .inl (nil_sublist _)⟩
  · simp only [if_neg hstopping, collectDispatchBatchLocked, hframe]
    split
    · refine ⟨hkept, rfl, Nat.le_refl _, fun i => .inl ?_⟩
      rw [hbefore]
      exact Sublist.refl _
    · generalize depthController.currentDepth - inflight.size = maxCount
      have htaken := taken_collect hkept maxCount
      refine ⟨htaken.kept, weights_collect maxCount _, Nat.le_refl _, fun i => .inl ?_⟩
      rw [hbefore, ← htaken.queues i]
      exact Sublist.refl _

omit hkept in
theorem applyDispatchResultsLocked_frame (results : List DispatchResult) :
    ∀ (s : Scheduler) (madeProgress : Bool) (readyResults : List ReadyResult), ∃ inflight,
      (s.applyDispatchResultsLocked results madeProgress readyResults).2.2 =
        { s with inflight, requestQueue := (answered .retryableBusy results).foldl returnToFront s.requestQueue } := by
  induction results with
  | nil => exact fun s _ _ => ⟨_, rfl⟩
  | cons dispatch results ih =>
    intro s madeProgress readyResults
    unfold applyDispatchResultsLocked
    cases hstatus : dispatch.status with
    | retryableBusy =>
      rw [answered_cons, if_pos hstatus]
      exact ih _ _ _
    | failed =>
      rw [answered_cons, if_neg (by simp [hstatus])]
      exact ih _ _ _
    | submitted =>
      rw [answered_cons, if_neg (by simp [hstatus])]
      exact ih _ _ _

theorem follows_secondSection {madeProgress shouldExit : Bool} {readyResults : List ReadyResult}
    {dispatchResults : List DispatchResult}
    (hw : s.worker = .dispatching madeProgress shouldExit readyResults [] dispatchResults) :
    Follows s (s.secondSection madeProgress shouldExit readyResults dispatchResults) := by
  obtain ⟨inflight, hframe⟩ := applyDispatchResultsLocked_frame dispatchResults s false readyResults
  unfold secondSection
  generalize s.applyDispatchResultsLocked dispatchResults false readyResults = applied at hframe
  simp only [hframe]
  refine ⟨?_, ?_, Nat.le_refl _, fun i => .inl ?_⟩
  · exact foldlRecOn _ returnToFront hkept fun q hq request _ => (Kept.operations hq request 0).2.1
  · refine foldlRecOn (motive := fun q : IoRequestQueue => q.dispatcher.weights = _) _ returnToFront rfl ?_
    exact fun q hq request _ => hq
  · have hqueue := (foldl_returnToFront (answered .retryableBusy dispatchResults) s.requestQueue i).1
    rw [inTurn, inTurn, hw, hqueue]
    exact Sublist.refl _

theorem follows_work (hbatch : s.worker.dispatchBatch = []) (surroundings : Surroundings) :
    Follows s (s.work surroundings) := by
  unfold work
  split
  case h_1 hw => exact follows_of_eq hkept rfl rfl (by rw [hw]; rfl) (by rw [hw]; rfl)
  case h_2 hw => exact follows_of_eq hkept rfl rfl (by rw [hw]; rfl) (by rw [hw]; rfl)
  case h_3 hw => exact follows_firstSection hkept hw _
  case h_4 hw =>
    rw [hw] at hbatch
    cases hbatch
  case h_5 hw => exact follows_secondSection hkept hw
  case h_6 hw => exact follows_of_eq hkept rfl rfl (by rw [hw]; rfl) (by rw [hw]; rfl)
  case h_7 shouldExit shouldContinue hw =>
    refine follows_of_eq hkept rfl rfl ?_ ?_
    · rw [hw]; cases shouldExit <;> cases shouldContinue <;> rfl
    · rw [hw]; cases shouldExit <;> cases shouldContinue <;> rfl
  case h_8 hw =>
    split
    · exact follows_of_eq hkept rfl rfl (by rw [hw]; rfl) (by rw [hw]; rfl)
    · exact follows_of_eq hkept rfl rfl rfl rfl
  case h_9 hw => exact follows_of_eq hkept rfl rfl rfl rfl

/-- Every step but an answer to a request of the batch hands nothing over. -/
theorem follows_step {step : Step} (hstep : ∀ surroundings, step = .work surroundings → s.worker.dispatchBatch = []) :
    Follows s (s.step step) ∧ s.handsOver step = [] ∧ s.Spares step := by
  cases step with
  | submit request => exact ⟨follows_submit hkept request, rfl, trivial⟩
  | stop => exact ⟨follows_of_eq hkept rfl rfl rfl rfl, rfl, trivial⟩
  | notifyWorker =>
    refine ⟨?_, rfl, trivial⟩
    rw [step, notifyWorker]
    split <;> exact follows_of_eq hkept rfl rfl rfl rfl
  | complete completion =>
    refine ⟨?_, rfl, trivial⟩
    rw [step, completeRequest]
    split <;> exact follows_of_eq hkept rfl rfl rfl rfl
  | work surroundings =>
    have hbatch := hstep surroundings rfl
    refine ⟨follows_work hkept hbatch surroundings, ?_, .inr ?_⟩
    · rw [handsOver, hbatch, take_nil, ite_self]
    · rw [hbatch]
      exact nofun

end Kept

/-- An element that is put before others that it followed is out of order, unless there are none. -/
theorem pairwise_moved_iff {before moved after : List ℕ} {id : ℕ}
    (h : (before ++ (moved ++ id :: after)).Pairwise (· < ·)) :
    (before ++ id :: (moved ++ after)).Pairwise (· < ·) ↔ moved = [] := by
  constructor
  · intro h'
    refine eq_nil_iff_forall_not_mem.mpr fun other hother => ?_
    have hlt := (pairwise_append.mp (pairwise_append.mp h).2.1).2.2 other hother id mem_cons_self
    have hgt := (pairwise_cons.mp (pairwise_append.mp h').2.1).1 other (mem_append_left _ hother)
    omega
  · rintro rfl
    exact h

section Answer

variable {madeProgress shouldExit : Bool} {readyResults : List ReadyResult} {queued : QueuedIoRequest}
  {dispatchBatch : List QueuedIoRequest} {dispatchResults : List DispatchResult}
  (hw : s.worker = .dispatching madeProgress shouldExit readyResults (queued :: dispatchBatch) dispatchResults)
  (surroundings : Surroundings)
include hw

/-- The requests of a priority in their order before an answer. -/
theorem inTurn_dispatching (i : Fin 3) : s.inTurn i =
    (ofPriority i (answered .retryableBusy dispatchResults)).reverse ++
      (ofPriority i [queued] ++ (ofPriority i dispatchBatch ++ s.requestQueue.queues i)) := by
  rw [inTurn, hw, ← append_assoc (ofPriority i [queued]), ← ofPriority_append]
  rfl

/-- Accepted or sent back, a request comes before those that were sent back. -/
theorem inTurn_answer (handedOver : List QueuedIoRequest) (hstatus : surroundings.status ≠ .failed) (i : Fin 3) :
    ofPriority i (handedOver ++ s.handsOver (.work surroundings)) ++ (s.work surroundings).inTurn i =
      ofPriority i handedOver ++ (ofPriority i [queued] ++
        ((ofPriority i (answered .retryableBusy dispatchResults)).reverse ++
          (ofPriority i dispatchBatch ++ s.requestQueue.queues i))) := by
  rw [handsOver, work, hw]
  simp only [submitNext, inTurn, Worker.dispatchResults, Worker.dispatchBatch, answered_concat, ofPriority_append]
  cases hanswer : surroundings.status with
  | submitted => simp [ofPriority]
  | retryableBusy =>
    have hreverse : (ofPriority i [queued]).reverse = ofPriority i [queued] := by
      rw [ofPriority, filter_cons]
      split <;> rfl
    simp [hreverse, show ofPriority i [] = [] from rfl]
  | failed => exact absurd hanswer hstatus

/-- A request that fails is left out. -/
theorem inTurn_failed (handedOver : List QueuedIoRequest) (hstatus : surroundings.status = .failed) (i : Fin 3) :
    ofPriority i (handedOver ++ s.handsOver (.work surroundings)) ++ (s.work surroundings).inTurn i =
      ofPriority i handedOver ++ ((ofPriority i (answered .retryableBusy dispatchResults)).reverse ++
        (ofPriority i dispatchBatch ++ s.requestQueue.queues i)) := by
  rw [handsOver, work, hw]
  simp [submitNext, inTurn, Worker.dispatchResults, Worker.dispatchBatch, answered_concat, hstatus]

theorem Numbered.answer (h : Numbered handedOver s) :
    Numbered (handedOver ++ s.handsOver (.work surroundings)) (s.work surroundings) := by
  have hqueue : (s.work surroundings).requestQueue = s.requestQueue ∧
      (s.work surroundings).nextRequestId = s.nextRequestId := by
    rw [work, hw]
    exact ⟨rfl, rfl⟩
  refine ⟨hqueue.1 ▸ h.kept, fun i r hr => hqueue.2 ▸ h.lt i r ?_⟩
  rw [inTurn_dispatching hw]
  by_cases hstatus : surroundings.status = .failed
  · rw [inTurn_failed hw surroundings handedOver hstatus] at hr
    simp only [mem_append] at hr ⊢
    tauto
  · rw [inTurn_answer hw surroundings handedOver hstatus] at hr
    simp only [mem_append] at hr ⊢
    tauto

/-- An answer keeps the order just when it spares it. -/
theorem InOrder.answer_iff (ho : s.InOrder handedOver) :
    (s.work surroundings).InOrder (handedOver ++ s.handsOver (.work surroundings)) ↔ s.Spares (.work surroundings) := by
  by_cases hstatus : surroundings.status = .failed
  · refine iff_of_true (fun i => (ho i).sublist (Sublist.map _ ?_)) (.inl hstatus)
    rw [inTurn_failed hw surroundings handedOver hstatus, inTurn_dispatching hw]
    exact ((sublist_append_right _ _).append_left _).append_left _
  have hnone : s.Spares (.work surroundings) ↔
      ofPriority (priorityIndex queued.request.priority) (answered .retryableBusy dispatchResults) = [] := by
    rw [Spares, or_iff_right hstatus, hw]
    simp only [Worker.dispatchBatch, Worker.dispatchResults, head?_cons, Option.mem_some_iff, forall_eq', ofPriority,
      answered, filter_map, map_eq_nil_iff, filter_filter, filter_eq_nil_iff]
    simp [and_comm]
  have hmoved := inTurn_answer hw surroundings handedOver hstatus
  have hturn := inTurn_dispatching hw
  rw [hnone, InOrder]
  refine ⟨fun h => ?_, fun hempty i => ?_⟩
  · have hp := ho (priorityIndex queued.request.priority)
    have hp' := h (priorityIndex queued.request.priority)
    have hself : ofPriority (priorityIndex queued.request.priority) [queued] = [queued] := by simp [ofPriority]
    rw [hturn, hself] at hp
    rw [hmoved, hself] at hp'
    simp only [map_append, map_cons, singleton_append] at hp hp'
    exact reverse_eq_nil_iff.mp (map_eq_nil_iff.mp ((pairwise_moved_iff hp).mp hp'))
  · have hi := ho i
    rw [hturn] at hi
    rw [hmoved]
    by_cases heq : priorityIndex queued.request.priority = i
    · rw [← heq, hempty] at hi ⊢
      exact hi
    · have hother : ofPriority i [queued] = [] := by simp [ofPriority, heq]
      rw [hother] at hi ⊢
      exact hi

end Answer

/-- A step answers a request of the batch, or there is none that the worker could offer. -/
theorem step_cases (s : Scheduler) (step : Step) :
    (∀ surroundings, step = .work surroundings → s.worker.dispatchBatch = []) ∨
      ∃ surroundings madeProgress shouldExit readyResults queued dispatchBatch dispatchResults,
        step = .work surroundings ∧
          s.worker = .dispatching madeProgress shouldExit readyResults (queued :: dispatchBatch) dispatchResults := by
  rw [or_iff_not_imp_left]
  intro hstep
  push Not at hstep
  obtain ⟨surroundings, rfl, hbatch⟩ := hstep
  cases hw : s.worker with
  | dispatching madeProgress shouldExit readyResults dispatchBatch dispatchResults =>
    cases dispatchBatch with
    | nil =>
      rw [hw] at hbatch
      exact absurd rfl hbatch
    | cons queued dispatchBatch => exact ⟨_, _, _, _, _, _, _, rfl, rfl⟩
  | _ =>
    rw [hw] at hbatch
    exact absurd rfl hbatch

theorem kept_step (hkept : s.requestQueue.Kept) (step : Step) : (s.step step).requestQueue.Kept ∧
    (s.step step).requestQueue.dispatcher.weights = s.requestQueue.dispatcher.weights := by
  rcases step_cases s step with hstep | ⟨surroundings, _, _, _, _, _, _, rfl, hw⟩
  · obtain ⟨hfollows, -, -⟩ := follows_step hkept hstep
    exact ⟨hfollows.kept, hfollows.weights⟩
  · rw [Scheduler.step, work, hw]
    exact ⟨hkept, rfl⟩

/-- One step, from requests that are in order. -/
theorem inOrder_step (h : Numbered handedOver s) (ho : s.InOrder handedOver) (step : Step) :
    Numbered (handedOver ++ s.handsOver step) (s.step step) ∧
      ((s.step step).InOrder (handedOver ++ s.handsOver step) ↔ s.Spares step) := by
  rcases step_cases s step with hstep | ⟨surroundings, _, _, _, _, _, _, rfl, hw⟩
  · obtain ⟨hfollows, hnone, hspares⟩ := follows_step h.kept hstep
    rw [hnone, append_nil]
    exact ⟨h.follows hfollows, iff_of_true (InOrder.follows ho h hfollows) hspares⟩
  · exact ⟨h.answer hw surroundings, InOrder.answer_iff hw surroundings ho⟩

theorem alwaysInOrder_iff (steps : List Step) : ∀ {s : Scheduler} {handedOver : List QueuedIoRequest},
    Numbered handedOver s → s.InOrder handedOver → (AlwaysInOrder handedOver s steps ↔ AlwaysSpares s steps) := by
  induction steps with
  | nil => exact fun _ ho => iff_of_true ho trivial
  | cons step steps ih =>
    intro s handedOver h ho
    obtain ⟨hnumbered, hspares⟩ := inOrder_step h ho step
    rw [AlwaysInOrder, AlwaysSpares, and_iff_right ho, ← hspares]
    constructor
    · intro halways
      have hnext : (s.step step).InOrder (handedOver ++ s.handsOver step) := by
        cases steps with
        | nil => exact halways
        | cons next steps => exact halways.1
      exact ⟨hnext, (ih hnumbered hnext).mp halways⟩
    · rintro ⟨hnext, hrest⟩
      exact (ih hnumbered hnext).mpr hrest

end Steps

/-- In every run the requests of a priority stay in order exactly if no request is accepted or
sent back in a round in which one of its priority was sent back before. And a batch that is sent
back as a whole leaves queues and credits as they were exactly if it is restorable. -/
theorem backPressure_keepsOrder_iff (weights : Fin 3 → ℕ) (hpos : ∀ i, 0 < weights i) :
    (∀ depthController steps,
      AlwaysInOrder [] (create depthController weights) steps ↔ AlwaysSpares (create depthController weights) steps) ∧
    ∀ q maxCount, Shared weights q → (∀ i, (q.queues i).Nodup) →
      (q.Undoes maxCount ↔ q.Restorable maxCount) := by
  refine ⟨fun depthController steps => alwaysInOrder_iff steps ⟨⟨?_, ?_, ?_⟩, ?_⟩ ?_, fun q maxCount hq hnodup =>
    sentBack_iff hq hpos hnodup maxCount⟩
  · exact fun i r hr => absurd hr not_mem_nil
  · exact fun i => Int.le_refl 0
  · exact fun i _ => rfl
  · exact fun i r hr => absurd hr not_mem_nil
  · exact fun i => Pairwise.nil

def readEight : IoRequest := { fd := 3, buffer := { data := some 0, size := 8, length := 8, owns := true } }

/-- Two reads are queued, collected in one batch, and answered. -/
def twoReads (first second : BackendSubmitStatus) : List Step :=
  [.submit readEight, .submit readEight, .work {}, .work {}, .work {}, .work { status := first }, .work { status := second }]

/-- The round ends, a notification wakes the worker, and the backend has room. -/
def nextRound : List Step :=
  [.work {}, .work {}, .notifyWorker, .work {}, .work {}, .work {}, .work {}, .work {}, .work {}]

/-- One of two reads was taken before, so that their priority has credits left. -/
def secondRead : IoRequestQueue :=
  { dispatcher := { weights := fun _ => 4, deficits := fun i => if i = priorityIndex 1 then 1 else 0
                    nextPriorityCursor := priorityIndex 2 }
    queues := fun i => if i = priorityIndex 1 then [⟨2, readEight, 1⟩] else []
    totalQueued := 1 }

/-- The first read is accepted and the second one sent back. And a single read that has a credit
is put back as it was. -/
theorem backPressure_keepsOrder_secondBusy :
    AlwaysInOrder [] (create (.fixed 2) fun _ => 4) (twoReads .submitted .retryableBusy) ∧ secondRead.Undoes 2 := by
  obtain ⟨hruns, hbatch⟩ := backPressure_keepsOrder_iff (fun _ => 4) (by decide)
  refine ⟨(hruns (.fixed 2) _).mpr ?_, ((hbatch secondRead 2 ⟨⟨?_, ?_, ?_⟩, rfl, rfl⟩ ?_).mpr ⟨?_, ?_⟩)⟩
  · exact ⟨trivial, trivial, .inr nofun, .inr nofun, .inr nofun, .inr nofun, .inr (by decide +kernel), trivial⟩
  all_goals decide

/-- Both reads are sent back. Their priority has two credits where it had none, and they are
accepted in the next round, the second before the first. -/
theorem twoReads_reversed :
    let queued := ((twoReads .retryableBusy .retryableBusy).take 2).foldl step (create (.fixed 2) fun _ => 4)
    let sentBack := (twoReads .retryableBusy .retryableBusy ++ nextRound.take 1).foldl step (create (.fixed 2) fun _ => 4)
    let accepted := (twoReads .retryableBusy .retryableBusy ++ nextRound).foldl step (create (.fixed 2) fun _ => 4)
    (queued.requestQueue.queues 1).map QueuedIoRequest.requestId = [1, 2] ∧
      (sentBack.requestQueue.queues 1).map QueuedIoRequest.requestId = [2, 1] ∧
      queued.requestQueue.dispatcher.deficits 1 = 0 ∧ sentBack.requestQueue.dispatcher.deficits 1 = 2 ∧
      accepted.accepted = [2, 1] := by
  decide +kernel

end Bolt.DiskIo
