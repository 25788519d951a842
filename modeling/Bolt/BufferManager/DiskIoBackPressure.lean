import Bolt.BufferManager.DiskIoOperations

/-!
# What a batch costs

Of two requests of a priority that are put back, the first ends up behind the second, and a
credit that is given back is not the one that was taken if a refill came between or the
queue ran empty.
-/

namespace Bolt.DiskIo

open IoRequestQueue List DispatchResult

/-- What so many rounds of the loop of `pick` do: a credit is taken of a priority that has
one, or none of the priorities looked at has one. -/
def Picked (queueSizes : Fin 3 → ℕ) (d : DrrDispatcher) (rounds : ℕ) (out : Option (Fin 3) × DrrDispatcher) : Prop :=
  match out.1 with
  | none => out.2.deficits = d.deficits ∧ ∀ i, (i - d.nextPriorityCursor).val < rounds → d.deficits i ≤ 0
  | some p => 0 < queueSizes p ∧ 0 < d.deficits p ∧
      out.2.deficits = fun i => if i = p then d.deficits i - 1 else d.deficits i

section Pick

variable {queueSizes : Fin 3 → ℕ} {d : DrrDispatcher}

theorem picked_pickLoop (rounds : ℕ) : ∀ d : DrrDispatcher, (∀ i, queueSizes i = 0 → d.deficits i = 0) →
    Picked queueSizes d rounds (d.pickLoop queueSizes rounds) := by
  induction rounds with
  | zero => exact fun d _ => ⟨rfl, nofun⟩
  | succ rounds ih =>
    intro d hem
    -- a priority that is passed over keeps its deficit: an empty queue has none
    have hp : d.deficits d.nextPriorityCursor ≤ 0 → Picked queueSizes d (rounds + 1)
        (({ d with nextPriorityCursor := d.nextPriorityCursor + 1 } : DrrDispatcher).pickLoop queueSizes rounds) := by
      intro hn
      have hr := ih { d with nextPriorityCursor := d.nextPriorityCursor + 1 } hem
      unfold Picked at hr ⊢
      split at hr <;> grind
    rw [DrrDispatcher.pickLoop]
    split_ifs with hs hdeficit
    · have hre : (fun i => if i = d.nextPriorityCursor then 0 else d.deficits i) = d.deficits := by grind
      rw [DrrDispatcher.reset, hre]
      exact hp (Int.le_of_eq (hem _ hs))
    · exact hp hdeficit
    · exact ⟨Nat.pos_of_ne_zero hs, Int.not_le.mp hdeficit, rfl⟩

/-- `pick` takes a credit that was there, or a refilled one of a priority that had none. -/
def PickedFrom (queueSizes : Fin 3 → ℕ) (d : DrrDispatcher) (out : Option (Fin 3) × DrrDispatcher) : Prop :=
  match out.1 with
  | none => out.2.deficits = d.deficits
  | some p => 0 < queueSizes p ∧ (∀ i, 0 ≤ out.2.deficits i ∧ (queueSizes i = 0 → out.2.deficits i = 0)) ∧
      (d.deficits p = 0 ∨ out.2.deficits = fun i => if i = p then d.deficits i - 1 else d.deficits i)

theorem pickedFrom_pick (hno : ∀ i, 0 ≤ d.deficits i) (hem : ∀ i, queueSizes i = 0 → d.deficits i = 0) :
    PickedFrom queueSizes d (d.pick queueSizes) := by
  unfold DrrDispatcher.pick
  split
  · have hp := picked_pickLoop ioPriorityCount d hem
    unfold Picked at hp
    unfold PickedFrom
    split at hp <;> grind
  · rename_i hn
    have hu : ∀ i, 0 < queueSizes i → d.deficits i ≤ 0 := by simpa [DrrDispatcher.hasDispatchableDeficit] using hn
    have hr : ∀ i, (d.refillDeficits queueSizes).deficits i =
        if 0 < queueSizes i then d.deficits i + d.weights i else 0 := fun _ => rfl
    have hp := @picked_pickLoop queueSizes ioPriorityCount (d.refillDeficits queueSizes) (by grind)
    unfold Picked at hp
    unfold PickedFrom
    split at hp
    · refine hp.1.trans (funext fun i => ?_)
      have ha := hp.2 i (Fin.isLt _)
      have hi := hr i
      have hpo := hno i
      have hni := hem i
      split at hi <;> omega
    · grind

end Pick

def ofPriority (i : Fin 3) (requests : List QueuedIoRequest) : List QueuedIoRequest :=
  requests.filter fun r => priorityIndex r.request.priority = i

/-- Requests are filed under their priority, and a queue has credits only while it has requests. -/
structure IoRequestQueue.Kept (q : IoRequestQueue) : Prop where
  filed : ∀ i, ∀ r ∈ q.queues i, priorityIndex r.request.priority = i
  nonneg : ∀ i, 0 ≤ q.dispatcher.deficits i
  empty : ∀ i, q.queues i = [] → q.dispatcher.deficits i = 0

/-- The batch was paid for with credits that the queues had before, and a queue that it
emptied had no others. -/
def Refundable (q : IoRequestQueue) (batch : List QueuedIoRequest) : Prop :=
  ∀ i, (ofPriority i batch).length ≤ q.dispatcher.deficits i ∧
    (ofPriority i batch ≠ [] → ofPriority i batch = q.queues i →
      q.dispatcher.deficits i = (ofPriority i batch).length)

/-- What `collect` takes off the queues, and what it does to the credits. -/
structure Taken (q : IoRequestQueue) (batch : List QueuedIoRequest) (q' : IoRequestQueue) : Prop where
  kept : q'.Kept
  queues : ∀ i, ofPriority i batch ++ q'.queues i = q.queues i
  credits : (∀ i, q'.dispatcher.deficits i + (ofPriority i batch).length = q.dispatcher.deficits i) ↔ Refundable q batch

section Collect

variable {q : IoRequestQueue} {d : DrrDispatcher} (hq : q.Kept)
include hq

theorem taken_nil (hd : d.deficits = q.dispatcher.deficits) : Taken q [] { q with dispatcher := d } where
  kept := ⟨hq.filed, fun i => hd ▸ hq.nonneg i, fun i => hd ▸ hq.empty i⟩
  queues _ := rfl
  credits := iff_of_true (by simp [hd, ofPriority]) fun i => ⟨hq.nonneg i, fun h => absurd rfl h⟩

theorem Taken.cons {p : Fin 3} {request : QueuedIoRequest} {queue batch : List QueuedIoRequest}
    {rest q' : IoRequestQueue} (hqu : q.queues p = request :: queue)
    (hpi : PickedFrom q.queueSizes q.dispatcher (some p, d))
    (hr : rest.queues = fun i => if i = p then queue else q.queues i)
    (hde : rest.dispatcher.deficits = fun i => if i = p ∧ queue = [] then 0 else d.deficits i) :
    rest.Kept ∧ (Taken rest batch q' → Taken q (request :: batch) q') := by
  obtain ⟨-, hd, hcred⟩ := hpi
  have hem : ∀ i, q.queues i = [] → d.deficits i = 0 := fun i h => (hd i).2 (by simp [queueSizes, h])
  have hf := hq.filed
  refine ⟨⟨by grind, by grind, by grind⟩, ?_⟩
  rintro ⟨hke, hqueues, hc⟩
  have hm : ofPriority p (request :: batch) = request :: ofPriority p batch := by grind [ofPriority]
  have ht : ∀ i ≠ p, ofPriority i (request :: batch) = ofPriority i batch := by grind [ofPriority]
  refine ⟨hke, by grind, ?_⟩
  have hno := hke.nonneg p
  rcases hcred with hz | heq
  · -- a refill has given credits to a priority that had none
    refine iff_of_false (fun h => ?_) (fun h => ?_)
    · have hp := h p
      rw [hm, length_cons, hz] at hp
      omega
    · have hp := (h p).1
      rw [hm, length_cons, hz] at hp
      omega
  · by_cases hl : queue = [] ∧ q.dispatcher.deficits p ≠ 1
    · -- the queue is emptied while it has more credits, which are lost
      have hn : ofPriority p batch = [] ∧ q'.queues p = [] := by simpa [hr, hl.1] using hqueues p
      refine iff_of_false (fun h => hl.2 ?_) (fun h => hl.2 ?_)
      · have hp := h p
        rw [hm, hn.1, hke.empty p hn.2] at hp
        exact hp.symm
      · have hp := (h p).2
        rw [hm, hn.1, hqu, hl.1] at hp
        exact hp (cons_ne_nil _ _) rfl
    · refine Iff.trans (forall_congr' fun i => ?_) (hc.trans (forall_congr' fun i => ?_))
      · by_cases hip : i = p <;> grind
      · by_cases hip : i = p <;> grind

theorem taken_collect (maxCount : ℕ) : Taken q (q.collect maxCount).1 (q.collect maxCount).2 := by
  induction maxCount generalizing q with
  | zero => exact taken_nil hq rfl
  | succ maxCount ih =>
    have hp : PickedFrom q.queueSizes _ _ := pickedFrom_pick hq.nonneg
      fun i hi => hq.empty i (length_eq_zero_iff.mp hi)
    unfold collect
    split
    · generalize q.dispatcher.pick q.queueSizes = out at hp ⊢
      obtain ⟨_ | p, d⟩ := out
      · exact taken_nil hq hp
      · dsimp only
        split
        · rename_i hn
          have hsi := hp.1
          simp [queueSizes, hn] at hsi
        · rename_i request queue hqu
          generalize hr : mk _ _ _ = rest
          have hs : rest.Kept ∧ (Taken rest (rest.collect maxCount).1 (rest.collect maxCount).2 → _) :=
            Taken.cons hq hqu hp (by rw [← hr])
              (by rw [← hr]; cases queue <;> simp [DrrDispatcher.reset])
          exact hs.2 (ih hs.1)
    · exact taken_nil hq rfl

/-- The operations of the queue keep requests and credits so. -/
theorem Kept.operations (request : QueuedIoRequest) (maxCount : ℕ) :
    (q.enqueue request).Kept ∧ (q.returnToFront request).Kept ∧ (q.collect maxCount).2.Kept ∧ q.drainAll.2.Kept := by
  obtain ⟨hf, hn, hem⟩ := hq
  have hd : ∀ i, q.drainAll.2.dispatcher.deficits i = 0 := fun i => match i with | 0 | 1 | 2 => rfl
  refine ⟨⟨?_, hn, ?_⟩, ⟨?_, ?_, ?_⟩, (taken_collect ⟨hf, hn, hem⟩ maxCount).kept,
    ⟨nofun, fun i => Int.le_of_eq (hd i).symm, fun i _ => hd i⟩⟩ <;>
    grind [enqueue, returnToFront, DrrDispatcher.restore, append_eq_nil_iff]

end Collect

theorem foldl_returnToFront (reqs : List QueuedIoRequest) (q : IoRequestQueue) (i : Fin 3) :
    (reqs.foldl returnToFront q).queues i = (ofPriority i reqs).reverse ++ q.queues i ∧
      (reqs.foldl returnToFront q).dispatcher.deficits i =
        q.dispatcher.deficits i + (ofPriority i reqs).length := by
  induction reqs generalizing q with
  | nil => simp [ofPriority]
  | cons request reqs ih =>
    grind [ofPriority, returnToFront, DrrDispatcher.restore]

end Bolt.DiskIo
