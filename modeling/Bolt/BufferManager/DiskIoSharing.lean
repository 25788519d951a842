import Bolt.BufferManager.DiskIoBackPressure

/-!
# Shares of the priorities

Between two refills a priority that stays backlogged is picked as often as its weight says.
A window of as many picks as the weights sum up to has one of them if it begins with a refill.
-/

namespace Bolt.DiskIo

open List IoRequestQueue

/-- The credits when a priority is picked, after the refill if there is one. -/
def IoRequestQueue.credits (q : IoRequestQueue) (i : Fin 3) : ℤ :=
  if q.dispatcher.hasDispatchableDeficit q.queueSizes then q.dispatcher.deficits i
  else if q.queues i = [] then 0 else q.dispatcher.weights i

theorem weights_pickLoop (queueSizes : Fin 3 → ℕ) (rounds : ℕ) (d : DrrDispatcher) :
    (d.pickLoop queueSizes rounds).2.weights = d.weights := by
  induction rounds generalizing d with
  | zero => rfl
  | succ rounds ih =>
    rw [DrrDispatcher.pickLoop]
    split_ifs
    · exact ih _
    · exact ih _
    · rfl

theorem weights_collect (maxCount : ℕ) (q : IoRequestQueue) :
    (q.collect maxCount).2.dispatcher.weights = q.dispatcher.weights := by
  induction maxCount generalizing q with
  | zero => rfl
  | succ maxCount ih =>
    have hpick : (q.dispatcher.pick q.queueSizes).2.weights = q.dispatcher.weights := by
      rw [DrrDispatcher.pick, weights_pickLoop]
      split <;> rfl
    unfold IoRequestQueue.collect
    split
    · dsimp only
      split
      · exact hpick
      · split
        · exact hpick
        · refine (ih _).trans ?_
          dsimp only
          split <;> exact hpick
    · rfl


/-- A pick takes the front of its queue, and the batch goes on with what is left. -/
theorem collect_succ {q : IoRequestQueue} {p : Fin 3} {d : DrrDispatcher} {request : QueuedIoRequest}
    {queue : List QueuedIoRequest} (hcounted : q.Counted) (hpick : q.dispatcher.pick q.queueSizes = (some p, d))
    (hqueue : q.queues p = request :: queue) (maxCount : ℕ) :
    q.collect (maxCount + 1) =
        (request :: ((q.collect 1).2.collect maxCount).1, ((q.collect 1).2.collect maxCount).2) ∧
      (q.collect 1).2 = ⟨if queue.isEmpty then d.reset p else d, fun i => if i = p then queue else q.queues i,
        q.totalQueued - 1⟩ := by
  have hrequests : q.hasRequests = true := by
    rw [← Bool.not_eq_false, not_hasRequests_iff hcounted]
    intro hnone
    simp only [contents, append_eq_nil_iff] at hnone
    match p with
    | 0 => exact cons_ne_nil _ _ (hqueue.symm.trans hnone.1.1)
    | 1 => exact cons_ne_nil _ _ (hqueue.symm.trans hnone.1.2)
    | 2 => exact cons_ne_nil _ _ (hqueue.symm.trans hnone.2)
  simp only [collect, if_pos hrequests, hpick, hqueue, and_self]

structure Shared (weights : Fin 3 → ℕ) (q : IoRequestQueue) : Prop where
  kept : q.Kept
  counted : q.Counted
  weights : q.dispatcher.weights = weights

section Pick

variable {weights : Fin 3 → ℕ} {q : IoRequestQueue} {i : Fin 3} (hq : Shared weights q) (hpos : ∀ i, 0 < weights i)
  (hi : q.queues i ≠ [])
include hq hpos hi

theorem Shared.pick : ∃ p d, q.dispatcher.pick q.queueSizes = (some p, d) ∧ q.queues p ≠ [] ∧ 0 < q.credits p ∧
    d.weights = weights ∧ ∀ j, d.deficits j = q.credits j - if j = p then 1 else 0 := by
  obtain ⟨⟨-, hno, hem⟩, -, rfl⟩ := hq
  -- the loop runs on the credits
  obtain ⟨d, hd, hw, hde⟩ : ∃ d : DrrDispatcher, q.dispatcher.pick q.queueSizes =
      d.pickLoop q.queueSizes ioPriorityCount ∧ d.weights = q.dispatcher.weights ∧ d.deficits = q.credits := by
    refine ⟨_, rfl, ?_, ?_⟩ <;> split
    · rfl
    · rfl
    · rename_i ha
      exact funext fun j => (if_pos ha).symm
    · rename_i hn
      have hu : ∀ j, 0 < q.queueSizes j → q.dispatcher.deficits j ≤ 0 := by
        simpa [DrrDispatcher.hasDispatchableDeficit] using hn
      funext j
      have hs : 0 < q.queueSizes j ↔ q.queues j ≠ [] := length_pos_iff
      grind [credits, DrrDispatcher.refillDeficits]
  have hpa : ∃ j, 0 < q.credits j := by
    by_cases ha : q.dispatcher.hasDispatchableDeficit q.queueSizes
    · obtain ⟨j, -, hj⟩ : ∃ j, 0 < q.queueSizes j ∧ 0 < q.dispatcher.deficits j := by
        simpa [DrrDispatcher.hasDispatchableDeficit] using ha
      exact ⟨j, by simpa [credits, ha] using hj⟩
    · exact ⟨i, by simpa [credits, ha, hi] using hpos i⟩
  have hp := @picked_pickLoop q.queueSizes ioPriorityCount d fun j hj => by
    have hni : q.queues j = [] := length_eq_zero_iff.mp hj
    simp [hde, credits, hni, hem j]
  have hke := weights_pickLoop q.queueSizes ioPriorityCount d
  rw [← hd] at hp hke
  generalize q.dispatcher.pick q.queueSizes = out at hp hke ⊢
  obtain ⟨_ | p, d'⟩ := out
  · obtain ⟨j, hj⟩ := hpa
    have hn := hp.2 j (Fin.isLt _)
    rw [hde] at hn
    omega
  · obtain ⟨hs, hc, haf⟩ := hp
    rw [hde] at hc haf
    exact ⟨p, d', rfl, length_pos_iff.mp hs, hc, hke.trans hw, by grind⟩

theorem Shared.collect : ∃ p, (q.dispatcher.pick q.queueSizes).1 = some p ∧ q.queues p ≠ [] ∧
    Shared weights (q.collect 1).2 ∧ ∀ j, (q.collect 1).2.dispatcher.deficits j ≤ q.credits j - (if j = p then 1 else 0) ∧
      ((q.collect 1).2.queues j ≠ [] → q.queues j ≠ [] ∧
        (q.collect 1).2.dispatcher.deficits j = q.credits j - if j = p then 1 else 0) := by
  obtain ⟨p, d, hpi, hp, hcr, hw, hd⟩ := hq.pick hpos hi
  obtain ⟨request, queue, hqu⟩ := exists_cons_of_ne_nil hp
  have hke := (taken_collect hq.kept 1).kept
  have hc := (collect_spec 1 q hq.counted).counted
  rw [(collect_succ hq.counted hpi hqu 0).2] at hke hc ⊢
  refine ⟨p, by rw [hpi], hp, ⟨hke, hc, ?_⟩, fun j => ?_⟩
  · cases queue <;> exact hw
  · cases queue <;> grind [DrrDispatcher.reset]

end Pick

/-- The weights of the priorities, and the requests that arrive before each pick. -/
structure Traffic where
  weights : Fin 3 → ℕ
  positive : ∀ i, 0 < weights i
  arrivals : ℕ → List QueuedIoRequest

section Turns

open Traffic

variable (t : Traffic)

def Traffic.queueAt : ℕ → IoRequestQueue
  | 0 => (t.arrivals 0).foldl enqueue { dispatcher := { weights := t.weights } }
  | turn + 1 => (t.arrivals (turn + 1)).foldl enqueue ((queueAt turn).collect 1).2

def Traffic.pickedAt (turn : ℕ) : Option (Fin 3) :=
  ((t.queueAt turn).dispatcher.pick (t.queueAt turn).queueSizes).1

def Traffic.RefillsAt (turn : ℕ) : Prop :=
  (t.queueAt turn).dispatcher.hasDispatchableDeficit (t.queueAt turn).queueSizes = false

def Traffic.Backlogged (i : Fin 3) (first last : ℕ) : Prop :=
  (t.queueAt first).queues i ≠ [] ∧
    ∀ turn < last, first ≤ turn → ((t.queueAt turn).collect 1).2.queues i ≠ []

theorem foldl_enqueue {weights : Fin 3 → ℕ} {q : IoRequestQueue} (hq : Shared weights q) (reqs : List QueuedIoRequest) :
    Shared weights (reqs.foldl enqueue q) ∧ (reqs.foldl enqueue q).dispatcher = q.dispatcher ∧
      ∀ i, q.queues i ≠ [] → (reqs.foldl enqueue q).queues i ≠ [] := by
  induction reqs generalizing q with
  | nil => exact ⟨hq, rfl, fun _ h => h⟩
  | cons request reqs ih =>
    obtain ⟨hs, hdispatcher, hqueues⟩ := ih
      ⟨(Kept.operations hq.kept request 0).1, enqueue_counted hq.counted request, hq.weights⟩
    refine ⟨hs, hdispatcher, fun i hi => hqueues i ?_⟩
    unfold enqueue
    grind [append_eq_nil_iff]

theorem shared_queueAt (turn : ℕ) : Shared t.weights (t.queueAt turn) := by
  induction turn with
  | zero =>
    apply (foldl_enqueue (q := { dispatcher := { weights := t.weights } }) ⟨⟨?_, ?_, ?_⟩, rfl, rfl⟩ _).1
    · simp
    · simp
    · simp
  | succ turn ih =>
    refine (foldl_enqueue ?_ _).1
    by_cases hs : ∃ i, (t.queueAt turn).queues i ≠ []
    · obtain ⟨i, hi⟩ := hs
      obtain ⟨-, -, -, hsh, -⟩ := ih.collect t.positive hi
      exact hsh
    · have hn : (t.queueAt turn).hasRequests = false :=
        (not_hasRequests_iff ih.counted).mpr (by simp_all [contents])
      rwa [IoRequestQueue.collect, hn]

/-- What a turn does to the credits of a backlogged priority and to their sum. -/
theorem turn_spec {i : Fin 3} {turn : ℕ} (hi : (t.queueAt turn).queues i ≠ [])
    (ha : ((t.queueAt turn).collect 1).2.queues i ≠ []) :
    let q := t.queueAt turn
    let q' := t.queueAt (turn + 1)
    q'.queues i ≠ [] ∧
      q'.dispatcher.deficits i + (if t.pickedAt turn = some i then 1 else 0) = q.credits i ∧
      q'.dispatcher.deficits 0 + q'.dispatcher.deficits 1 + q'.dispatcher.deficits 2 + 1 ≤
        q.credits 0 + q.credits 1 + q.credits 2 := by
  obtain ⟨p, hp, -, hs, hc⟩ := (shared_queueAt t turn).collect t.positive hi
  obtain ⟨-, hdispatcher, hqueues⟩ := foldl_enqueue hs (t.arrivals (turn + 1))
  have hn : t.queueAt (turn + 1) = (t.arrivals (turn + 1)).foldl enqueue ((t.queueAt turn).collect 1).2 := rfl
  refine ⟨hqueues i ha, ?_, ?_⟩
  · rw [hn, hdispatcher, ((hc i).2 ha).2, pickedAt, hp]
    simp [eq_comm]
  · rw [hn, hdispatcher]
    have h0 := (hc 0).1
    have h1 := (hc 1).1
    have h2 := (hc 2).1
    match p with
    | 0 | 1 | 2 => simp at h0 h1 h2; omega

/-- From a refill to the next one the picks of a backlogged priority use up its weight, and
all picks together the sum of the weights. -/
theorem share_spec {i : Fin 3} {first n : ℕ} (hr : t.RefillsAt first)
    (hb : t.Backlogged i first (first + (n + 1)))
    (hl : ∀ turn < first + (n + 1), first < turn → ¬ t.RefillsAt turn) :
    let q := t.queueAt (first + (n + 1))
    q.queues i ≠ [] ∧
      q.dispatcher.deficits i + (range' first (n + 1)).countP (t.pickedAt · = some i) = t.weights i ∧
      q.dispatcher.deficits 0 + q.dispatcher.deficits 1 + q.dispatcher.deficits 2 + (n + 1) ≤
        t.weights 0 + t.weights 1 + t.weights 2 := by
  induction n with
  | zero =>
    obtain ⟨hqu, hsh, hs⟩ := turn_spec t hb.1 (hb.2 first (by omega) (Nat.le_refl _))
    have hw := (shared_queueAt t first).weights
    have hc : ∀ j, (t.queueAt first).credits j ≤ t.weights j := by
      intro j
      rw [credits, hr, hw]
      simp only [Bool.false_eq_true, if_false]
      split <;> omega
    have hf : (t.queueAt first).credits i = t.weights i := by
      rw [credits, hr, hw]
      simp [hb.1]
    refine ⟨hqu, ?_, by grind⟩
    grind
  | succ n ih =>
    obtain ⟨hqu, hsh, hs⟩ := ih ⟨hb.1, fun turn hlt hle => hb.2 turn (by omega) hle⟩
      fun turn hle hlt => hl turn (by omega) hlt
    obtain ⟨hque', hsh', hs'⟩ := turn_spec t hqu (hb.2 _ (by omega) (by omega))
    have hc : (t.queueAt (first + (n + 1))).credits =
        (t.queueAt (first + (n + 1))).dispatcher.deficits :=
      funext fun j => if_pos (by simpa [RefillsAt] using hl (first + (n + 1)) (by omega) (by omega))
    rw [hc] at hsh' hs'
    refine ⟨hque', ?_, by grind⟩
    rw [range'_1_concat, countP_append, countP_singleton]
    grind

theorem not_refillsAt {i : Fin 3} {turn : ℕ} (hi : (t.queueAt turn).queues i ≠ [])
    (hc : 0 < (t.queueAt turn).dispatcher.deficits i) : ¬ t.RefillsAt turn := by
  rw [RefillsAt, Bool.not_eq_false, DrrDispatcher.hasDispatchableDeficit, any_eq_true]
  exact ⟨i, mem_finRange i, by simpa [queueSizes, length_pos_iff, hc] using hi⟩

end Turns

/-- For every arrival pattern: a pick answers with a priority that has requests if there is
one, no credits are negative, and between two refills a priority that stays backlogged is
picked as often as its weight says. It is picked among the picks that begin with a refill
and are as many as the weights sum up to. -/
theorem picks_by_weight (t : Traffic) : (∀ turn i, (t.queueAt turn).queues i ≠ [] →
      ∃ p, t.pickedAt turn = some p ∧ (t.queueAt turn).queues p ≠ []) ∧
    (∀ turn i, 0 ≤ (t.queueAt turn).dispatcher.deficits i) ∧
    (∀ i first last, first < last → t.RefillsAt first → t.RefillsAt last →
      (∀ turn < last, first < turn → ¬ t.RefillsAt turn) → t.Backlogged i first last →
      (range' first (last - first)).countP (t.pickedAt · = some i) = t.weights i) ∧
    ∀ i first, t.RefillsAt first → t.Backlogged i first (first + (t.weights 0 + t.weights 1 + t.weights 2)) →
      ∃ turn, first ≤ turn ∧ turn < first + (t.weights 0 + t.weights 1 + t.weights 2) ∧ t.pickedAt turn = some i := by
  have hnonneg : ∀ turn i, 0 ≤ (t.queueAt turn).dispatcher.deficits i :=
    fun turn => (shared_queueAt t turn).kept.nonneg
  refine ⟨fun turn i hi => ?_, hnonneg, fun i first last hlt hfirst hlast hlater hback => ?_, fun i first hfirst hback => ?_⟩
  · obtain ⟨p, hp, hqueue, -⟩ := (shared_queueAt t turn).collect t.positive hi
    exact ⟨p, hp, hqueue⟩
  · obtain ⟨n, rfl⟩ : ∃ n, last = first + (n + 1) := ⟨last - first - 1, by omega⟩
    obtain ⟨hqueue, hshare, -⟩ := share_spec t hfirst hback hlater
    have hspent := mt (not_refillsAt t hqueue) (not_not.mpr hlast)
    have hcredit := hnonneg (first + (n + 1)) i
    rw [Nat.add_sub_cancel_left]
    omega
  · by_contra hnever
    have hunpicked : ∀ n ≤ t.weights 0 + t.weights 1 + t.weights 2,
        (range' first n).countP (t.pickedAt · = some i) = 0 := by
      intro n hn
      rw [countP_eq_zero]
      intro turn hturn
      rw [mem_range'_1] at hturn
      exact fun h => hnever ⟨turn, by omega, by omega, of_decide_eq_true h⟩
    -- as long as it is not picked it has credits, and there is no refill
    have hlater : ∀ turn < first + (t.weights 0 + t.weights 1 + t.weights 2), first < turn →
        ¬ t.RefillsAt turn := by
      intro turn
      induction turn using Nat.strongRecOn with
      | ind turn ih =>
        intro hle hlt
        obtain ⟨n, rfl⟩ : ∃ n, turn = first + (n + 1) := ⟨turn - first - 1, by omega⟩
        obtain ⟨hqueue, hshare, -⟩ := share_spec t hfirst ⟨hback.1, fun turn h h' => hback.2 turn (by omega) h'⟩
          fun turn h h' => ih turn h (by omega) h'
        have hzero := hunpicked (n + 1) (by omega)
        have hweight := t.positive i
        exact not_refillsAt t hqueue (by omega)
    obtain ⟨n, hn⟩ : ∃ n, t.weights 0 + t.weights 1 + t.weights 2 = n + 1 :=
      ⟨t.weights 0 + t.weights 1 + t.weights 2 - 1, by have := t.positive 0; omega⟩
    rw [hn] at hback hlater
    obtain ⟨-, hshare, hsum⟩ := share_spec t hfirst hback hlater
    have hzero := hunpicked (n + 1) (by omega)
    have hweight := t.positive i
    have h0 := hnonneg (first + (n + 1)) 0
    have h1 := hnonneg (first + (n + 1)) 1
    have h2 := hnonneg (first + (n + 1)) 2
    match i with
    | 0 | 1 | 2 => omega

/-- The second priority has twice the weight of the others, and before each pick every
priority gets a request. -/
def oneOfEach : Traffic where
  weights i := if i.val = 1 then 2 else 1
  positive _ := by split <;> decide
  arrivals _ := [0, 1, 2].map fun priority => ⟨1, { priority }, 0⟩

theorem picks_by_weight_oneOfEach : (range' 0 (4 - 0)).countP (oneOfEach.pickedAt · = some 1) = oneOfEach.weights 1 := by
  apply (picks_by_weight oneOfEach).2.2.1 1 0 4 (by decide)
  · unfold Traffic.RefillsAt; decide
  · unfold Traffic.RefillsAt; decide
  · unfold Traffic.RefillsAt; decide
  · unfold Traffic.Backlogged; decide

/-- The weights sum up to four. The four picks that end with a refill have none of the first
priority, which always has requests. -/
theorem refill_comes_late : oneOfEach.RefillsAt 4 ∧ oneOfEach.Backlogged 0 1 5 ∧
    (range' 1 4).map oneOfEach.pickedAt = [some 1, some 2, some 1, some 2] := by
  unfold Traffic.RefillsAt Traffic.Backlogged
  decide

end Bolt.DiskIo
