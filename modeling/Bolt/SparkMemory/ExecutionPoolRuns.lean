import Bolt.SparkMemory.ExecutionPool

/-!
# What the tasks of a pool hold

With the quota extension disabled a pass of the acquisition loop ends in one of four
ways, and each grant is the same function of the pool. From this every step keeps the
total within the pool.
-/

namespace Bolt.ExecutionPool

open Lib.Ledgers Ledger Lib.Runs

/-- A pool of the size whose quota is never extended. -/
structure PoolInvariant (size : ℕ) (pool : Pool) : Prop where
  disabled : pool.enable = false
  size_eq : pool.poolSize.getD 0 = size
  extend_eq : pool.poolExtendSize = none
  nonneg : ∀ task, 0 ≤ pool.memoryForTask.held task
  total_le : pool.memoryForTask.total ≤ size

namespace PoolInvariant

variable {size : ℕ} {pool : Pool}

theorem internalPoolSize (h : PoolInvariant size pool) : pool.internalPoolSize = size := by
  rw [Pool.internalPoolSize, h.size_eq, h.extend_eq]
  simp

theorem enter (h : PoolInvariant size pool) (task : ℤ) :
    PoolInvariant size { pool with memoryForTask := pool.memoryForTask.enter task } := by
  refine { h with total_le := ?_ }
  rw [total_enter]
  exact h.total_le

end PoolInvariant

/-- A grant is at most what was asked for and what is free, and keeps the task within its
share unless it is zero. -/
theorem toGrant_bounds {call : AcquireCall} {per curMem freeMemory : ℤ} (hb : 0 < call.numBytes)
    (hf : 0 ≤ freeMemory) :
    0 ≤ toGrant call per curMem freeMemory ∧ toGrant call per curMem freeMemory ≤ call.numBytes ∧
      toGrant call per curMem freeMemory ≤ freeMemory ∧
      (0 < toGrant call per curMem freeMemory →
        curMem + toGrant call per curMem freeMemory ≤ per) := by
  unfold toGrant
  omega

/-- A pass without quota extension that grants has granted this. -/
structure Granted (size : ℕ) (pool : Pool) (call : AcquireCall) (grant : Grant) : Prop where
  counted : grant.numActiveTasks = pool.memoryForTask.accounts.card
  nonneg : 0 ≤ grant.toGrant
  le_numBytes : grant.toGrant ≤ call.numBytes
  le_free : pool.memoryForTask.total + grant.toGrant ≤ size
  share : 0 < grant.toGrant →
    pool.memoryForTask.held call.taskAttemptId + grant.toGrant ≤ size / grant.numActiveTasks
  atLeast : grant.toGrant < call.numBytes →
    size / (2 * grant.numActiveTasks) ≤ pool.memoryForTask.held call.taskAttemptId + grant.toGrant

/-- The call is granted something, or only the account of its task is opened. -/
def GrantsOrEnters (size : ℕ) (pool : Pool) (call : AcquireCall) (out : Pass × Pool) : Prop :=
  (∃ grant, out.1 = .granted grant ∧ Granted size pool call grant ∧ out.2 = { pool with
      memoryForTask := (pool.memoryForTask.enter call.taskAttemptId).add call.taskAttemptId grant.toGrant
      memIncreaseSize := pool.memIncreaseSize + grant.toGrant }) ∨
    ((∀ grant, out.1 ≠ .granted grant) ∧
      out.2 = { pool with memoryForTask := pool.memoryForTask.enter call.taskAttemptId })

/-- Without quota extension the branch that does not wait grants what was computed. -/
theorem settle_eq {size : ℕ} {pool : Pool} (h : PoolInvariant size pool) (call : AcquireCall) (quota : QuotaAnswer)
    (again : Option (Pool → Pass × Pool)) (numActiveTasks : ℕ) :
    let granted := toGrant call (pool.internalPoolSize.tdiv numActiveTasks)
      (pool.memoryForTask.held call.taskAttemptId) pool.internalMemoryFree
    pool.settle call quota again numActiveTasks granted = pool.commit call numActiveTasks granted := by
  intro granted
  unfold Pool.settle
  rw [h.size_eq, ← h.internalPoolSize]
  split
  · rfl
  · cases again with
    | none => rfl
    | some again => simp [h.disabled]

section

variable {size : ℕ} {pool : Pool} (h : PoolInvariant size pool) {call : AcquireCall} (hb : 0 < call.numBytes)
  (quota : QuotaAnswer)

include h hb

/-- What a pass does to a pool without quota extension. -/
theorem pass_cases (again : Option (Pool → Pass × Pool)) : GrantsOrEnters size pool call (pool.pass call quota again) := by
  have hen := h.enter call.taskAttemptId
  have hf : Pool.internalMemoryFree { pool with memoryForTask := pool.memoryForTask.enter call.taskAttemptId } =
      size - pool.memoryForTask.total := by
    have hle := h.total_le
    rw [Pool.internalMemoryFree, hen.internalPoolSize, Pool.internalMemoryUsed, total_enter]
    omega
  have hbo := @toGrant_bounds call ((size : ℤ).tdiv pool.memoryForTask.accounts.card)
    (pool.memoryForTask.held call.taskAttemptId) (size - pool.memoryForTask.total) hb
    (by have hle := h.total_le; omega)
  have hs := settle_eq hen call quota again pool.memoryForTask.accounts.card
  simp only [hen.internalPoolSize, hf, held_enter] at hs
  simp only [GrantsOrEnters, Pool.pass, hen.internalPoolSize, hf, held_enter, hs]
  split
  · exact .inr ⟨by simp, rfl⟩
  · split
    · exact .inr ⟨by simp, rfl⟩
    · split
      · exact .inr ⟨by simp, rfl⟩
      · rename_i hwait
        refine .inl ⟨_, rfl, ⟨rfl, hbo.1, hbo.2.1, ?_, fun hp => ?_, fun hl => ?_⟩, rfl⟩
        · show pool.memoryForTask.total + toGrant call _ _ _ ≤ size
          omega
        · have hsh := hbo.2.2.2 hp
          rwa [Int.tdiv_eq_ediv_of_nonneg (Int.natCast_nonneg size)] at hsh
        · have ha := not_lt.mp fun hlt => hwait ⟨hl, hlt⟩
          rwa [Int.tdiv_eq_ediv_of_nonneg (Int.natCast_nonneg size)] at ha

theorem acquireLoop_cases (borrowed : Bool) :
    GrantsOrEnters size pool call (pool.acquireLoop call quota borrowed) := by
  rw [Pool.acquireLoop]
  split
  · exact pass_cases h hb quota none
  · exact pass_cases h hb quota _

/-- A pass of the acquiring loop keeps the invariant. -/
theorem PoolInvariant.acquireLoop (borrowed : Bool) : PoolInvariant size (pool.acquireLoop call quota borrowed).2 := by
  rcases acquireLoop_cases h hb quota borrowed with ⟨grant, _, hgrant, hp⟩ | ⟨_, hp⟩
  · rw [hp]
    refine ⟨h.disabled, h.size_eq, h.extend_eq, fun task => ?_, ?_⟩
    · have hh := h.nonneg task
      by_cases htask : task = call.taskAttemptId
      · subst htask
        have hn := hgrant.nonneg
        rw [held_add_self, held_enter]
        omega
      · rw [held_add_of_ne _ htask, held_enter]
        exact hh
    · rw [total_add, total_enter]
      exact hgrant.le_free
  · rw [hp]
    exact h.enter call.taskAttemptId

end

structure Released (pool : Pool) (numBytes task : ℤ) (answer : ℤ × Pool) : Prop where
  amount : answer.1 = min numBytes (pool.memoryForTask.held task)
  held : answer.2.memoryForTask.held task = pool.memoryForTask.held task - answer.1
  other : ∀ t, t ≠ task → answer.2.memoryForTask.held t = pool.memoryForTask.held t
  total : answer.2.memoryForTask.total = pool.memoryForTask.total - answer.1
  removed : answer.2.memoryForTask.held task = 0 → task ∉ answer.2.memoryForTask.accounts
  kept : answer.2.memoryForTask.held task ≠ 0 → answer.2.memoryForTask.accounts = pool.memoryForTask.accounts
  frame : answer.2.enable = pool.enable ∧ answer.2.poolSize = pool.poolSize ∧
    answer.2.poolExtendSize = pool.poolExtendSize

/-- `releaseMemory`. A task without an account holds nothing, so a release of nothing or
more gives back nothing. -/
theorem releaseMemory_spec (pool : Pool) {numBytes : ℤ} (hb : 0 ≤ numBytes) (task : ℤ) :
    Released pool numBytes task (pool.releaseMemory numBytes task) := by
  have ha : (if pool.memoryForTask.held task < numBytes then pool.memoryForTask.held task else numBytes) =
      min numBytes (pool.memoryForTask.held task) := by
    split <;> omega
  simp only [Pool.releaseMemory, ha]
  split
  case isTrue hm =>
    split
    case isTrue hz =>
      rw [held_add_self] at hz
      refine ⟨rfl, ?_, fun t ht => ?_, ?_, fun _ => ?_, fun hne => ?_, rfl, rfl, rfl⟩
      · rw [held_close_self]
        omega
      · rw [held_close_of_ne _ ht, held_add_of_ne _ ht]
      · rw [total_close, total_add, held_add_self]
        omega
      · simp
      · exact absurd (held_close_self _ _) hne
    case isFalse hne =>
      refine ⟨rfl, ?_, fun t ht => held_add_of_ne _ ht _, ?_, fun hz => absurd hz hne, fun _ => ?_,
        rfl, rfl, rfl⟩
      · rw [held_add_self]
        omega
      · rw [total_add]
        omega
      · rw [accounts_add, Finset.insert_eq_of_mem hm]
  case isFalse hm =>
    have hh := pool.memoryForTask.held_eq_zero task hm
    have hmi : min numBytes (pool.memoryForTask.held task) = 0 := by omega
    refine ⟨rfl, ?_, fun _ _ => rfl, ?_, fun _ => hm, fun _ => rfl, rfl, rfl, rfl⟩
    · rw [hmi]
      exact (Int.sub_zero _).symm
    · rw [hmi]
      exact (Int.sub_zero _).symm

/-- A release keeps the invariant. -/
theorem PoolInvariant.releaseMemory {size : ℕ} {pool : Pool} (h : PoolInvariant size pool) {numBytes : ℤ}
    (hb : 0 ≤ numBytes) (task : ℤ) : PoolInvariant size (pool.releaseMemory numBytes task).2 := by
  have hr := releaseMemory_spec pool hb task
  have ha := hr.amount
  have hh := h.nonneg task
  obtain ⟨hen, hs, hextend⟩ := hr.frame
  refine ⟨hen.trans h.disabled, ?_, hextend.trans h.extend_eq, fun t => ?_, ?_⟩
  · rw [hs]
    exact h.size_eq
  · by_cases ht : t = task
    · subst ht
      rw [hr.held]
      omega
    · rw [hr.other t ht]
      exact h.nonneg t
  · have hto := hr.total
    have hle := h.total_le
    omega

structure SystemInvariant (size : ℕ) (system : System) : Prop where
  pool : PoolInvariant size system.pool
  waiting : ∀ waiter ∈ system.waiting, 0 < waiter.call.numBytes

/-- A step whose release is of a number of bytes. -/
def Step.WellFormed : Step → Prop
  | .release numBytes _ => 0 ≤ numBytes
  | _ => True

namespace SystemInvariant

variable {size : ℕ} {system : System}

theorem afterPass {waiting : List Waiter} (hw : ∀ waiter ∈ waiting, 0 < waiter.call.numBytes)
    {call : AcquireCall} (hb : 0 < call.numBytes) {result : Pass × Pool} (hr : PoolInvariant size result.2) :
    SystemInvariant size (System.afterPass waiting call result).2 := by
  unfold System.afterPass
  split
  · refine ⟨hr, List.forall_mem_append.mpr ⟨hw, ?_⟩⟩
    exact List.forall_mem_singleton.mpr hb
  · exact ⟨hr, hw⟩

theorem waiting_eraseIdx (h : SystemInvariant size system) (place : ℕ) :
    ∀ waiter ∈ system.waiting.eraseIdx place, 0 < waiter.call.numBytes :=
  fun waiter hwaiter => h.waiting waiter (List.mem_of_mem_eraseIdx hwaiter)

/-- Every step keeps the invariant. -/
theorem step (h : SystemInvariant size system) {s : Step} (hs : s.WellFormed) :
    SystemInvariant size (system.step s).2 := by
  cases s with
  | acquire call quota =>
    simp only [System.step]
    split
    · exact h
    · rename_i hb
      rw [Int.not_le] at hb
      exact afterPass h.waiting hb ((h.pool.enter call.taskAttemptId).acquireLoop hb quota false)
  | wake place quota =>
    simp only [System.step]
    split
    · exact h
    · rename_i waiter hwaiter
      have hb := h.waiting waiter (List.mem_of_getElem? hwaiter)
      exact afterPass (h.waiting_eraseIdx place) hb (h.pool.acquireLoop hb quota _)
  | timeout place =>
    simp only [System.step]
    split
    · exact h
    · exact ⟨h.pool, h.waiting_eraseIdx place⟩
  | release numBytes task => exact ⟨h.pool.releaseMemory hs task, h.waiting⟩
  | disableQuota task => exact ⟨{ h.pool with }, h.waiting⟩
  | enableQuota task =>
    simp only [System.step]
    split
    · exact ⟨{ h.pool with }, h.waiting⟩
    · exact h

theorem create (poolSize : Option ℕ) (sampleSize minMemoryMaxWaitMs : ℤ) :
    SystemInvariant (poolSize.getD 0) (System.create poolSize sampleSize minMemoryMaxWaitMs) where
  pool := by
    refine ⟨rfl, ?_, rfl, fun _ => le_rfl, ?_⟩
    · cases poolSize <;> rfl
    · exact Int.natCast_nonneg _
  waiting := by simp [System.create]

end SystemInvariant

structure StepSafe (size : ℕ) (before : System) (s : Step) (answer : Answer) (after : System) : Prop where
  total_le : before.pool.memoryForTask.total ≤ size ∧ after.pool.memoryForTask.total ≤ size
  nonneg : ∀ task, 0 ≤ after.pool.memoryForTask.held task
  granted : ∀ call grant, answer = .passed call (.granted grant) →
    (0 ≤ grant.toGrant ∧ grant.toGrant ≤ call.numBytes) ∧
      after.pool.memoryForTask.held call.taskAttemptId =
        before.pool.memoryForTask.held call.taskAttemptId + grant.toGrant ∧
      (∀ task, task ≠ call.taskAttemptId →
        after.pool.memoryForTask.held task = before.pool.memoryForTask.held task) ∧
      (0 < grant.toGrant → after.pool.memoryForTask.held call.taskAttemptId ≤ size / grant.numActiveTasks) ∧
      (grant.toGrant < call.numBytes →
        size / (2 * grant.numActiveTasks) ≤ after.pool.memoryForTask.held call.taskAttemptId)
  /-- The tasks are those with an account, but for a call that wakes up without one. -/
  counted : ∀ call grant, answer = .passed call (.granted grant) →
    grant.numActiveTasks = after.pool.memoryForTask.accounts.card ∨
      (call.taskAttemptId ∉ before.pool.memoryForTask.accounts ∧ (∃ place quota, s = .wake place quota) ∧
        grant.numActiveTasks + 1 = after.pool.memoryForTask.accounts.card)
  released : ∀ numBytes task, s = .release numBytes task → ∃ memoryToFree, answer = .released memoryToFree ∧
    Released before.pool numBytes task (memoryToFree, after.pool)
  unchanged : (∀ call grant, answer ≠ .passed call (.granted grant)) → (∀ memoryToFree, answer ≠ .released memoryToFree) →
    after.pool.memoryForTask.held = before.pool.memoryForTask.held

namespace StepSafe

variable {size : ℕ} {before : System} {s : Step}

theorem ofHeld {answer : Answer} {after : System} (hbe : SystemInvariant size before)
    (ha : SystemInvariant size after) (hg : ∀ call grant, answer ≠ .passed call (.granted grant))
    (hr : ∀ numBytes task, s ≠ .release numBytes task)
    (hh : after.pool.memoryForTask.held = before.pool.memoryForTask.held) : StepSafe size before s answer after where
  total_le := ⟨hbe.pool.total_le, ha.pool.total_le⟩
  nonneg := ha.pool.nonneg
  granted call grant h := absurd h (hg call grant)
  counted call grant h := absurd h (hg call grant)
  released numBytes task h := absurd h (hr numBytes task)
  unchanged _ _ := hh

theorem afterPass_answer (waiting : List Waiter) (call : AcquireCall) (result : Pass × Pool) :
    (System.afterPass waiting call result).1 = .passed call result.1 ∧
      (System.afterPass waiting call result).2.pool = result.2 := by
  unfold System.afterPass
  split <;> exact ⟨rfl, rfl⟩

theorem ofPass (hbe : SystemInvariant size before) {pool : Pool} (hpo : PoolInvariant size pool)
    (hh : pool.memoryForTask.held = before.pool.memoryForTask.held) {call : AcquireCall}
    (hb : 0 < call.numBytes) (quota : QuotaAnswer) (borrowed : Bool) {waiting : List Waiter}
    (hw : ∀ waiter ∈ waiting, 0 < waiter.call.numBytes)
    (hre : ∀ numBytes task, s ≠ .release numBytes task)
    (hc : call.taskAttemptId ∈ pool.memoryForTask.accounts ∨
      (call.taskAttemptId ∉ before.pool.memoryForTask.accounts ∧ ∃ place quota, s = .wake place quota)) :
    StepSafe size before s (System.afterPass waiting call (pool.acquireLoop call quota borrowed)).1
      (System.afterPass waiting call (pool.acquireLoop call quota borrowed)).2 := by
  have haf := SystemInvariant.afterPass hw hb (hpo.acquireLoop hb quota borrowed)
  obtain ⟨ha, hr⟩ := afterPass_answer waiting call (pool.acquireLoop call quota borrowed)
  rcases acquireLoop_cases hpo hb quota borrowed with ⟨grant, hp, hgrant, hn⟩ | ⟨hno, hn⟩
  · rw [hn] at hr
    rw [hp] at ha
    have heq : ∀ c g, (System.afterPass waiting call (pool.acquireLoop call quota borrowed)).1 =
        .passed c (.granted g) → c = call ∧ g = grant := by
      intro c g h
      rw [ha] at h
      cases h
      exact ⟨rfl, rfl⟩
    refine ⟨⟨hbe.pool.total_le, haf.pool.total_le⟩, haf.pool.nonneg, fun c g h => ?_, fun c g h => ?_,
      fun numBytes task h => absurd h (hre numBytes task), fun h _ => absurd ha (h call grant)⟩
    · obtain ⟨rfl, rfl⟩ := heq c g h
      have hs : (System.afterPass waiting c (pool.acquireLoop c quota borrowed)).2.pool.memoryForTask.held
          c.taskAttemptId = before.pool.memoryForTask.held c.taskAttemptId + g.toGrant := by
        rw [hr, held_add_self, held_enter, hh]
      rw [hs, ← hh]
      refine ⟨⟨hgrant.nonneg, hgrant.le_numBytes⟩, rfl, fun task htask => ?_, hgrant.share, hgrant.atLeast⟩
      rw [hr, held_add_of_ne _ htask, held_enter]
    · obtain ⟨rfl, rfl⟩ := heq c g h
      rw [hr, hgrant.counted, accounts_add, accounts_enter, Finset.insert_idem]
      by_cases hm : c.taskAttemptId ∈ pool.memoryForTask.accounts
      · left
        rw [Finset.insert_eq_of_mem hm]
      · right
        obtain ⟨ho, hwake⟩ := hc.resolve_left hm
        exact ⟨ho, hwake, (Finset.card_insert_of_notMem hm).symm⟩
  · refine ofHeld hbe haf (fun c g h => ?_) hre ?_
    · rw [ha] at h
      injection h with _ hp
      exact hno g hp
    · rw [hr, hn]
      exact hh

theorem of_invariant (hbe : SystemInvariant size before) (hs : s.WellFormed) :
    StepSafe size before s (before.step s).1 (before.step s).2 := by
  have ha := hbe.step hs
  cases s with
  | acquire call quota =>
    simp only [System.step] at ha ⊢
    split
    · exact ofHeld hbe hbe (by simp) (by simp) rfl
    · rename_i hb
      rw [Int.not_le] at hb
      exact ofPass hbe (hbe.pool.enter call.taskAttemptId) rfl hb quota false hbe.waiting (by simp)
        (.inl (Finset.mem_insert_self _ _))
  | wake place quota =>
    simp only [System.step]
    split
    · exact ofHeld hbe hbe (by simp) (by simp) rfl
    · rename_i waiter hwaiter
      have hb := hbe.waiting waiter (List.mem_of_getElem? hwaiter)
      refine ofPass hbe hbe.pool rfl hb quota _ (hbe.waiting_eraseIdx place) (by simp) ?_
      by_cases hm : waiter.call.taskAttemptId ∈ before.pool.memoryForTask.accounts
      · exact .inl hm
      · exact .inr ⟨hm, place, quota, rfl⟩
  | timeout place =>
    simp only [System.step] at ha ⊢
    split
    · exact ofHeld hbe hbe (by simp) (by simp) rfl
    · refine ofHeld hbe ⟨hbe.pool, hbe.waiting_eraseIdx place⟩ ?_ (by simp) rfl
      intro call grant
      split <;> simp
  | release numBytes task =>
    refine ⟨⟨hbe.pool.total_le, ha.pool.total_le⟩, ha.pool.nonneg, ?_, ?_, fun n t h => ?_, fun _ h => ?_⟩
    · simp [System.step]
    · simp [System.step]
    · cases h
      exact ⟨_, rfl, releaseMemory_spec before.pool hs task⟩
    · exact absurd rfl (h _)
  | disableQuota task => exact ofHeld hbe ha (by simp [System.step]) (by simp) rfl
  | enableQuota task =>
    simp only [System.step] at ha ⊢
    split
    · rename_i hm
      rw [if_pos hm] at ha
      exact ofHeld hbe ha (by simp) (by simp) rfl
    · exact ofHeld hbe hbe (by simp) (by simp) rfl

end StepSafe

/-- After every interleaving of acquisitions and releases, without quota extension, the
next step keeps the total within the pool, grants between nothing and what was asked for,
keeps a task within its share when it grants anything, leaves it with half a share when it
grants less than was asked for, and releases what is held up to what was asked for. -/
theorem run_stepSafe (poolSize : Option ℕ) (sampleSize minMemoryMaxWaitMs : ℤ) (steps : List Step) (s : Step)
    (hsteps : ∀ step ∈ steps, step.WellFormed) (hs : s.WellFormed) :
    let before := (run System.step (System.create poolSize sampleSize minMemoryMaxWaitMs) steps).2
    StepSafe (poolSize.getD 0) before s (before.step s).1 (before.step s).2 := by
  intro before
  have hbefore : SystemInvariant (poolSize.getD 0) before :=
    run_invariant_of (fun _ _ hstep h => h.step hstep) steps hsteps
      (SystemInvariant.create poolSize sampleSize minMemoryMaxWaitMs)
  exact StepSafe.of_invariant hbefore hs

/-- One task takes the whole pool, and another one waits for its half. -/
def wholeThenHalf : List Step :=
  [.acquire { numBytes := 100, taskAttemptId := 1 } none, .acquire { numBytes := 80, taskAttemptId := 2 } none,
    .release 60 1]

theorem run_stepSafe_wholeThenHalf :
    let before := (run System.step (System.create (some 100) 0 1) wholeThenHalf).2
    StepSafe 100 before (.wake 0 none) (before.step (.wake 0 none)).1 (before.step (.wake 0 none)).2 ∧
      (before.step (.wake 0 none)).1 =
        .passed { numBytes := 80, taskAttemptId := 2 } (.granted { toGrant := 50, numActiveTasks := 2 }) := by
  refine ⟨run_stepSafe (some 100) 0 1 wholeThenHalf (.wake 0 none) ?_ trivial, by rfl⟩
  simp [wholeThenHalf, Step.WellFormed]

/-- A task that took the whole pool stays above its share when it asks again, and a release
of a negative number of bytes raises the total above the pool. -/
theorem zero_grant_above_share : (let before := (run System.step (System.create (some 100) 0 1) (wholeThenHalf.take 2)).2
      let after := before.step (.acquire { numBytes := 1, taskAttemptId := 1 } none)
      after.1 = .passed { numBytes := 1, taskAttemptId := 1 } (.granted { toGrant := 0, numActiveTasks := 2 }) ∧
        100 / 2 < after.2.pool.memoryForTask.held 1) ∧
      100 < (run System.step (System.create (some 100) 0 1) (wholeThenHalf.take 1 ++ [.release (-1) 1])).2.pool.memoryForTask.total := by
  refine ⟨⟨by rfl, by decide⟩, by decide⟩

end Bolt.ExecutionPool
