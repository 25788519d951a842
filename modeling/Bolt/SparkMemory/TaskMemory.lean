import Bolt.SparkMemory.ExecutionPool

/-!
# The calls of one task on the pool

`TaskMemoryManager` holds its own lock for the whole of a call, so the threads of a task
use the pool one at a time: while a call of the task waits, only steps of other tasks
happen. A call is a function of what happens meanwhile. It adds its grant to the account
of the task, and nothing else changes that account but a release of the task.
-/

namespace Bolt.TaskMemory

open Lib.Ledgers ExecutionPool

/-- How a call can end without returning. -/
inductive Failure where
  /-- A `BOLT_CHECK` does not hold. -/
  | checkFailed
  | divisionByZero
  /-- The call has used up what was to happen while it ran and still waits. -/
  | notReturned
deriving DecidableEq

inductive Event where
  | other (s : Step)
  | wake (quota : QuotaAnswer)

def taskOf (system : System) : Step → Option ℤ
  | .acquire call _ => some call.taskAttemptId
  | .wake place _ => (system.waiting[place]?).map (·.call.taskAttemptId)
  | .timeout place => (system.waiting[place]?).map (·.call.taskAttemptId)
  | .release _ taskAttemptId => some taskAttemptId
  | .disableQuota _ => none
  | .enableQuota _ => none

/-- A step of another task. The lock of the task memory manager keeps out those of the
task itself. -/
def otherStep (taskAttemptId : ℤ) (system : System) (s : Step) : System :=
  if taskOf system s = some taskAttemptId then system else (system.step s).2

def finish (resume : Bool → System → Except Failure (ℤ × System)) (waiting : List Waiter) (result : Pass × Pool) :
    Except Failure (ℤ × System) :=
  match result.1 with
  | .granted grant => .ok (grant.toGrant, { pool := result.2, waiting := waiting })
  | .refused => .ok (0, { pool := result.2, waiting := waiting })
  | .divisionByZero => .error .divisionByZero
  | .waits thisRunHasBorrowed => resume thisRunHasBorrowed { pool := result.2, waiting := waiting }

/-- A call that waits. It times out when nothing more happens. -/
def waitFor (call : AcquireCall) : List Event → (thisRunHasBorrowed : Bool) → System → Except Failure (ℤ × System)
  | [], _, system => if system.pool.minMemoryMaxWaitMs ≤ 0 then .error .checkFailed else .ok (0, system)
  | .other s :: events, borrowed, system =>
    waitFor call events borrowed (otherStep call.taskAttemptId system s)
  | .wake quota :: events, borrowed, system =>
    finish (waitFor call events) system.waiting (system.pool.acquireLoop call quota borrowed)

/-- `ExecutionMemoryPool::acquireMemory` up to its return. -/
def acquireMemory (call : AcquireCall) (quota : QuotaAnswer) (events : List Event) (system : System) :
    Except Failure (ℤ × System) :=
  if call.numBytes ≤ 0 then .error .checkFailed
  else
    let pool := { system.pool with memoryForTask := system.pool.memoryForTask.enter call.taskAttemptId }
    finish (waitFor call events) system.waiting (pool.acquireLoop call quota false)

def getOveragedMemoryForTask (taskAttemptId : ℤ) (system : System) : Except Failure (ℤ × System) :=
  if system.pool.poolExtendSize.isNone then .ok (0, system)
  else
    let numActiveTasks := system.pool.memoryForTask.accounts.card
    let pool := { system.pool with memoryForTask := system.pool.memoryForTask.enter taskAttemptId }
    if numActiveTasks = 0 then .error .divisionByZero
    else
      let maxMemoryPerTask := pool.internalPoolSize.tdiv numActiveTasks
      .ok (max 0 (pool.memoryForTask.held taskAttemptId - maxMemoryPerTask), { system with pool := pool })

/-- `inited()` and `enable_` are static: neither is the `enable` of the pool's option, which
only acquisitions read. -/
def getFreeMemoryForTask (inited enabled : Bool) (taskAttemptId : ℤ) (system : System) :
    Except Failure (Option ℤ × System) :=
  if !inited || !enabled then .ok (none, system)
  else
    let numActiveTasks := system.pool.memoryForTask.accounts.card
    let pool := { system.pool with memoryForTask := system.pool.memoryForTask.enter taskAttemptId }
    if numActiveTasks = 0 then .error .divisionByZero
    else
      let maxMemoryPerTask := pool.internalPoolSize.tdiv numActiveTasks
      .ok (some (maxMemoryPerTask - pool.memoryForTask.held taskAttemptId), { system with pool := pool })

variable {result : Pass × Pool}

section Pass

variable {call : AcquireCall}

/-- The amounts after a pass: its grant is added to the account of the task. -/
structure Passed (before : Ledger ℤ) (call : AcquireCall) (result : Pass × Pool) : Prop where
  granted : ∀ grant, result.1 = .granted grant →
    0 ≤ grant.toGrant ∧ grant.toGrant ≤ call.numBytes ∧
      result.2.memoryForTask.held = Function.update before.held call.taskAttemptId
        (before.held call.taskAttemptId + grant.toGrant)
  notGranted : (∀ grant, result.1 ≠ .granted grant) → result.2.memoryForTask.held = before.held

theorem Passed.of_enter {before : Ledger ℤ} {task : ℤ}
    (h : Passed (before.enter task) call result) : Passed before call result :=
  ⟨h.granted, h.notGranted⟩

theorem passed_commit (pool : Pool) (numActiveTasks : ℕ) {granted : ℤ} (hn : 0 ≤ granted)
    (hle : granted ≤ call.numBytes) :
    Passed pool.memoryForTask call (pool.commit call numActiveTasks granted) := by
  refine ⟨fun grant h => ?_, fun h => absurd rfl (h _)⟩
  cases h
  exact ⟨hn, hle, rfl⟩

section

variable (hb : 0 < call.numBytes) (pool : Pool)
include hb pool

theorem toGrant_mem (per curMem : ℤ) : 0 ≤ toGrant call per curMem pool.internalMemoryFree ∧
      toGrant call per curMem pool.internalMemoryFree ≤ call.numBytes := by
  have hf : 0 ≤ pool.internalMemoryFree := le_max_left _ _
  unfold toGrant
  omega

theorem passed_settle (quota : QuotaAnswer) {again : Option (Pool → Pass × Pool)} {numActiveTasks : ℕ} {granted : ℤ}
    (hn : 0 ≤ granted) (hle : granted ≤ call.numBytes)
    (ha : ∀ f ∈ again, ∀ p : Pool, p.memoryForTask = pool.memoryForTask → Passed pool.memoryForTask call (f p)) :
    Passed pool.memoryForTask call (pool.settle call quota again numActiveTasks granted) := by
  unfold Pool.settle
  split
  · obtain ⟨h0, h1⟩ := toGrant_mem hb pool ((pool.poolSize.getD 0).tdiv numActiveTasks)
      (pool.memoryForTask.held call.taskAttemptId)
    exact passed_commit pool numActiveTasks h0 h1
  · cases again with
    | none => exact passed_commit pool numActiveTasks hn hle
    | some f =>
      dsimp only
      split
      · cases quota with
        | none => exact passed_commit { pool with memIncreaseSize := 0 } numActiveTasks hn hle
        | some extend => exact ha f rfl _ rfl
      · exact passed_commit pool numActiveTasks hn hle

theorem passed_pass (quota : QuotaAnswer) {again : Option (Pool → Pass × Pool)}
    (ha : ∀ f ∈ again, ∀ p : Pool, p.memoryForTask = pool.memoryForTask.enter call.taskAttemptId →
      Passed (pool.memoryForTask.enter call.taskAttemptId) call (f p)) :
    Passed pool.memoryForTask call (pool.pass call quota again) := by
  unfold Pool.pass
  dsimp only
  split
  · exact ⟨fun _ h => (nomatch h), fun _ => rfl⟩
  · split
    · exact ⟨fun _ h => (nomatch h), fun _ => rfl⟩
    · split
      · exact ⟨fun _ h => (nomatch h), fun _ => rfl⟩
      · refine Passed.of_enter (passed_settle hb
          { pool with memoryForTask := pool.memoryForTask.enter call.taskAttemptId } quota ?_ ?_ ha)
        · exact (toGrant_mem hb _ _ _).1
        · exact (toGrant_mem hb _ _ _).2

theorem passed_acquireLoop (quota : QuotaAnswer) (borrowed : Bool) :
    Passed pool.memoryForTask call (pool.acquireLoop call quota borrowed) := by
  have hl : ∀ p : Pool, Passed p.memoryForTask call (p.pass call quota none) :=
    fun p => passed_pass hb p quota (by simp)
  unfold Pool.acquireLoop
  split
  · exact hl pool
  · refine passed_pass hb pool quota ?_
    intro f hf p hp
    cases hf
    rw [← hp]
    exact hl p

end

end Pass

def OthersWait (taskAttemptId : ℤ) (system : System) : Prop :=
  ∀ waiter ∈ system.waiting, waiter.call.taskAttemptId ≠ taskAttemptId ∧ 0 < waiter.call.numBytes

section Other

variable {task : ℤ}

theorem afterPass_other {waiting : List Waiter} {call : AcquireCall} {before : Pool}
    (hw : ∀ waiter ∈ waiting, waiter.call.taskAttemptId ≠ task ∧ 0 < waiter.call.numBytes)
    (hc : call.taskAttemptId ≠ task) (hb : 0 < call.numBytes)
    (hp : Passed before.memoryForTask call result) :
    OthersWait task (System.afterPass waiting call result).2 ∧
      (System.afterPass waiting call result).2.pool.memoryForTask.held task = before.memoryForTask.held task := by
  have hh : result.2.memoryForTask.held task = before.memoryForTask.held task := by
    by_cases hg : ∃ grant, result.1 = .granted grant
    · obtain ⟨grant, hgrant⟩ := hg
      rw [(hp.granted grant hgrant).2.2, Function.update_of_ne (Ne.symm hc)]
    · rw [hp.notGranted fun grant hgrant => hg ⟨grant, hgrant⟩]
  unfold System.afterPass
  split
  · refine ⟨List.forall_mem_append.mpr ⟨hw, ?_⟩, hh⟩
    exact List.forall_mem_singleton.mpr ⟨hc, hb⟩
  · exact ⟨hw, hh⟩

theorem releaseMemory_other (pool : Pool) (numBytes : ℤ) {other : ℤ} (ho : other ≠ task) :
    (pool.releaseMemory numBytes other).2.memoryForTask.held task = pool.memoryForTask.held task := by
  simp only [Pool.releaseMemory]
  generalize (if pool.memoryForTask.held other < numBytes then pool.memoryForTask.held other else numBytes) = freed
  split
  · split
    · rw [Ledger.held_close_of_ne _ (Ne.symm ho), Ledger.held_add_of_ne _ (Ne.symm ho)]
    · rw [Ledger.held_add_of_ne _ (Ne.symm ho)]
  · rfl

theorem otherStep_held {system : System} (h : OthersWait task system) (s : Step) :
    OthersWait task (otherStep task system s) ∧
      (otherStep task system s).pool.memoryForTask.held task = system.pool.memoryForTask.held task := by
  have hera : ∀ place, ∀ waiter ∈ system.waiting.eraseIdx place,
      waiter.call.taskAttemptId ≠ task ∧ 0 < waiter.call.numBytes :=
    fun place waiter hwaiter => h waiter (List.mem_of_mem_eraseIdx hwaiter)
  unfold otherStep
  split
  · exact ⟨h, rfl⟩
  · rename_i ho
    cases s with
    | acquire call quota =>
      simp only [System.step]
      split
      · exact ⟨h, rfl⟩
      · rename_i hb
        rw [Int.not_le] at hb
        have hc : call.taskAttemptId ≠ task := fun heq => ho (congrArg some heq)
        have hp := Passed.of_enter (passed_acquireLoop hb
          { system.pool with memoryForTask := system.pool.memoryForTask.enter call.taskAttemptId } quota false)
        exact afterPass_other h hc hb hp
    | wake place quota =>
      simp only [System.step]
      cases hwaiter : system.waiting[place]? with
      | none => exact ⟨h, rfl⟩
      | some waiter =>
        obtain ⟨hc, hb⟩ := h waiter (List.mem_of_getElem? hwaiter)
        exact afterPass_other (hera place) hc hb (passed_acquireLoop hb _ quota _)
    | timeout place =>
      simp only [System.step]
      cases hwaiter : system.waiting[place]? with
      | none => exact ⟨h, rfl⟩
      | some waiter => exact ⟨hera place, rfl⟩
    | release numBytes other =>
      have hne : other ≠ task := fun heq => ho (congrArg some heq)
      exact ⟨h, releaseMemory_other system.pool numBytes hne⟩
    | disableQuota other => exact ⟨h, rfl⟩
    | enableQuota other =>
      simp only [System.step]
      split
      · exact ⟨h, rfl⟩
      · exact ⟨h, rfl⟩

end Other

/-- The call has returned a grant that was added to the account of its task. -/
structure Acquired (before : ℤ) (call : AcquireCall) (answer : ℤ × System) : Prop where
  nonneg : 0 ≤ answer.1
  le_numBytes : answer.1 ≤ call.numBytes
  held : answer.2.pool.memoryForTask.held call.taskAttemptId = before + answer.1
  others : OthersWait call.taskAttemptId answer.2

variable {answer : ℤ × System}

section Acquire

variable {call : AcquireCall}

theorem finish_spec {resume : Bool → System → Except Failure (ℤ × System)} {waiting : List Waiter} {before : Pool}
    (hb : 0 < call.numBytes)
    (hw : ∀ waiter ∈ waiting, waiter.call.taskAttemptId ≠ call.taskAttemptId ∧ 0 < waiter.call.numBytes)
    (hpa : Passed before.memoryForTask call result)
    (hr : ∀ borrowed system answer, OthersWait call.taskAttemptId system → resume borrowed system = .ok answer →
      Acquired (system.pool.memoryForTask.held call.taskAttemptId) call answer)
    (ha : finish resume waiting result = .ok answer) :
    Acquired (before.memoryForTask.held call.taskAttemptId) call answer := by
  unfold finish at ha
  split at ha
  · rename_i grant hgrant
    obtain ⟨h0, h1, hh⟩ := hpa.granted grant hgrant
    cases ha
    refine ⟨h0, h1, ?_, hw⟩
    rw [hh, Function.update_self]
  · rename_i hp
    have hh := hpa.notGranted (by simp [hp])
    cases ha
    refine ⟨le_rfl, hb.le, ?_, hw⟩
    rw [hh]
    exact (Int.add_zero _).symm
  · cases ha
  · rename_i borrowed hp
    have hh := hpa.notGranted (by simp [hp])
    have hre := hr borrowed { pool := result.2, waiting := waiting } answer hw ha
    rwa [hh] at hre

theorem waitFor_spec (hb : 0 < call.numBytes) (events : List Event) :
    ∀ borrowed system answer, OthersWait call.taskAttemptId system → waitFor call events borrowed system = .ok answer →
      Acquired (system.pool.memoryForTask.held call.taskAttemptId) call answer := by
  induction events with
  | nil =>
    intro borrowed system answer ho ha
    unfold waitFor at ha
    split at ha
    · cases ha
    · cases ha
      exact ⟨le_rfl, hb.le, (Int.add_zero _).symm, ho⟩
  | cons event events ih =>
    intro borrowed system answer ho ha
    cases event with
    | other s =>
      obtain ⟨hoth', hh⟩ := otherStep_held ho s
      rw [← hh]
      exact ih borrowed _ answer hoth' ha
    | wake quota => exact finish_spec hb ho (passed_acquireLoop hb _ quota borrowed) ih ha

/-- A call that returns has added what it returns to the account of its task. -/
theorem acquireMemory_spec {quota : QuotaAnswer} {events : List Event} {system : System}
    (ho : OthersWait call.taskAttemptId system)
    (ha : acquireMemory call quota events system = .ok answer) :
    Acquired (system.pool.memoryForTask.held call.taskAttemptId) call answer := by
  unfold acquireMemory at ha
  split at ha
  · cases ha
  · rename_i hb
    rw [Int.not_le] at hb
    have hp := Passed.of_enter (passed_acquireLoop hb
      { system.pool with memoryForTask := system.pool.memoryForTask.enter call.taskAttemptId } quota false)
    exact finish_spec hb ho hp (waitFor_spec hb events) ha

end Acquire

theorem getOveragedMemoryForTask_held {task : ℤ} {system : System}
    (ha : getOveragedMemoryForTask task system = .ok answer) :
    answer.2.pool.memoryForTask.held = system.pool.memoryForTask.held ∧ answer.2.waiting = system.waiting := by
  unfold getOveragedMemoryForTask at ha
  split at ha
  · cases ha
    exact ⟨rfl, rfl⟩
  · dsimp only at ha
    split at ha
    · cases ha
    · cases ha
      exact ⟨rfl, rfl⟩

section Queries

variable (system : System) (task : ℤ)

/-- A query returns and leaves the pool as it was. -/
def HasNoEffect {α : Type} (query : System → Except Failure (α × System)) : Prop := ∃ answer, query system = .ok (answer, system)

/-- A query that looks the task up with `operator[]` and divides by the number of tasks has
no effect exactly for an active task. -/
theorem lookup_hasNoEffect_iff {α : Type} (answer : α) :
    (∃ a, (if system.pool.memoryForTask.accounts.card = 0 then .error .divisionByZero
      else .ok (answer, { system with pool.memoryForTask := system.pool.memoryForTask.enter task }) :
        Except Failure (α × System)) = .ok (a, system)) ↔ task ∈ system.pool.memoryForTask.accounts := by
  constructor
  · rintro ⟨a, ha⟩
    split at ha
    · cases ha
    · have hs := congrArg (·.2.pool.memoryForTask.accounts) (Except.ok.inj ha)
      exact Finset.insert_eq_self.mp hs
  · intro hac
    have hc : system.pool.memoryForTask.accounts.card ≠ 0 := Finset.card_ne_zero_of_mem hac
    have hen : system.pool.memoryForTask.enter task = system.pool.memoryForTask := by
      simp only [Ledger.enter, Finset.insert_eq_of_mem hac]
    rw [if_neg hc, hen]
    exact ⟨answer, rfl⟩

/-- The two queries have no effect exactly where they do not get to the table of the tasks,
or where the task is active. -/
theorem queries_hasNoEffect_iff (inited enabled : Bool) : (HasNoEffect system (getOveragedMemoryForTask task) ↔
        system.pool.poolExtendSize = none ∨ task ∈ system.pool.memoryForTask.accounts) ∧
      (HasNoEffect system (getFreeMemoryForTask inited enabled task) ↔
        (inited = false ∨ enabled = false) ∨ task ∈ system.pool.memoryForTask.accounts) := by
  constructor
  · cases hextend : system.pool.poolExtendSize.isNone with
    | true => simp_all [HasNoEffect, getOveragedMemoryForTask]
    | false =>
      have hreads : system.pool.poolExtendSize ≠ none := Option.isSome_iff_ne_none.mp (by simpa using hextend)
      simp only [HasNoEffect, getOveragedMemoryForTask, hextend, Bool.false_eq_true, ↓reduceIte, hreads, false_or]
      exact lookup_hasNoEffect_iff system task _
  · cases hread : !inited || !enabled with
    | true => simp_all [HasNoEffect, getFreeMemoryForTask]
    | false =>
      have hreads : ¬(inited = false ∨ enabled = false) := by simp_all
      simp only [HasNoEffect, getFreeMemoryForTask, hread, Bool.false_eq_true, ↓reduceIte, hreads, false_or]
      exact lookup_hasNoEffect_iff system task _

/-- In a new pool of 100 bytes a query divides by zero. Once task 1 holds one byte, a query
for task 2 makes it active, and task 1 is granted half the pool and not all of it. -/
theorem query_changes_share :
    let created := System.create (some 100) 0 1
    let acquire numBytes := acquireMemory { numBytes := numBytes, taskAttemptId := 1 } none []
    getFreeMemoryForTask true true 2 created = .error .divisionByZero ∧
      (acquire 1 created >>= fun held => acquire 99 held.2).map (·.1) = .ok 99 ∧
      (acquire 1 created >>= fun held => getFreeMemoryForTask true true 2 held.2 >>= fun asked => acquire 99 asked.2).map (·.1) =
        .ok 49 := by
  refine ⟨rfl, by rfl, by rfl⟩

end Queries

end Bolt.TaskMemory
