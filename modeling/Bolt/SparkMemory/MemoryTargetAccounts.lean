import Bolt.SparkMemory.MemoryTarget
import Bolt.SparkMemory.ExecutionPoolRuns

/-!
# The accounts of the memory targets

Every call changes the used bytes of a node and of all its ancestors by the same amount,
so the used bytes of a node are the sum of what was borrowed and repaid in its subtree.
While a borrow is under way the pool already counts what the bridge does not know of yet;
the spillers of that borrow find the accounts of the tree as if it had not begun.
-/

namespace Bolt.MemoryTarget

open Lib.Ledgers ExecutionPool TaskMemory List

/-- What was borrowed less what was repaid in the subtree of a node. -/
def subtreeSum (returned : List (Path × ℤ)) (path : Path) : ℤ :=
  ((returned.filter fun entry => decide (path <:+ entry.1)).map Prod.snd).sum

/-- What was borrowed less what was repaid on the node itself. -/
def directSum (returned : List (Path × ℤ)) (path : Path) : ℤ :=
  ((returned.filter fun entry => decide (entry.1 = path)).map Prod.snd).sum

theorem subtreeSum_append (returned : List (Path × ℤ)) (entry : Path × ℤ) (path : Path) :
    subtreeSum (returned ++ [entry]) path = subtreeSum returned path + if path <:+ entry.1 then entry.2 else 0 := by
  by_cases h : path <:+ entry.1 <;> simp [subtreeSum, h]

def raise (bytes : ℤ) : Path → Tree → Tree
  | [], tree => { tree with used := tree.used + bytes, recorded := tree.recorded + bytes }
  | name :: parent, tree => (raise bytes parent tree).inc (name :: parent) bytes

section Raise

variable (bytes : ℤ) (path : Path) (tree : Tree)

@[simp] theorem raise_system : (raise bytes path tree).system = tree.system := by
  induction path with
  | nil => rfl
  | cons name parent ih => exact ih

@[simp] theorem raise_nodes : (raise bytes path tree).nodes = tree.nodes := by
  induction path with
  | nil => rfl
  | cons name parent ih => exact ih

@[simp] theorem raise_capacity : (raise bytes path tree).capacity = tree.capacity := by
  induction path with
  | nil => rfl
  | cons name parent ih => exact ih

@[simp] theorem raise_returned : (raise bytes path tree).returned = tree.returned := by
  induction path with
  | nil => rfl
  | cons name parent ih => exact ih

@[simp] theorem raise_used : (raise bytes path tree).used = tree.used + bytes := by
  induction path with
  | nil => rfl
  | cons name parent ih => exact ih

@[simp] theorem raise_recorded : (raise bytes path tree).recorded = tree.recorded + bytes := by
  induction path with
  | nil => rfl
  | cons name parent ih => exact ih

theorem raise_current (q : Path) :
    (raise bytes path tree).current q = tree.current q + if q ≠ [] ∧ q <:+ path then bytes else 0 := by
  induction path with
  | nil =>
    have hn : ¬(q ≠ [] ∧ q <:+ []) := fun h => h.1 (suffix_nil.mp h.2)
    rw [if_neg hn, Int.add_zero]
    rfl
  | cons name parent ih =>
    show Function.update (raise bytes parent tree).current (name :: parent)
      ((raise bytes parent tree).current (name :: parent) + bytes) q = _
    by_cases hq : q = name :: parent
    · subst hq
      have hn : ¬(name :: parent <:+ parent) := fun h => by simpa using h.length_le
      rw [Function.update_self, ih, if_neg fun h => hn h.2, if_pos ⟨cons_ne_nil _ _, suffix_rfl⟩]
      omega
    · rw [Function.update_of_ne hq, ih]
      simp only [suffix_cons_iff, hq, false_or]

theorem raise_usedBytes (q : Path) :
    (raise bytes path tree).usedBytes q = tree.usedBytes q + if q <:+ path then bytes else 0 := by
  cases q with
  | nil =>
    exact raise_used bytes path tree
  | cons name parent =>
    simp only [Tree.usedBytes, raise_current, ne_eq, cons_ne_nil, not_false_eq_true, true_and]

theorem raise_zero : raise 0 path tree = tree := by
  induction path with
  | nil => simp [raise]
  | cons name parent ih => simp [raise, ih, Tree.inc]

end Raise

/-- The accounts of a tree while the pool has granted bytes that the bridge does not know
of yet. -/
structure Accounts (task : ℤ) (inflight : ℤ) (tree : Tree) : Prop where
  bounds : ∀ path, 0 ≤ tree.current path ∧ tree.current path ≤ tree.capacity path
  used_nonneg : 0 ≤ tree.used
  recorded_eq : tree.recorded = tree.used
  sums : ∀ path, tree.usedBytes path = subtreeSum tree.returned path
  held : tree.system.pool.memoryForTask.held task = tree.used + inflight
  inflight_nonneg : 0 ≤ inflight
  others : OthersWait task tree.system
  registered : ∀ entry ∈ tree.returned, tree.Exists entry.1
  closed : ∀ path ∈ tree.nodes, path ≠ [] ∧ tree.Exists path.tail
  nodup : tree.nodes.Nodup

namespace Accounts

variable {task inflight : ℤ} {tree : Tree}

theorem raise (h : Accounts task inflight tree) {path : Path} (hexi : tree.Exists path) {bytes inflight' : ℤ}
    {system : System} (hl : ∀ q, q <:+ path → 0 ≤ tree.usedBytes q + bytes)
    (hhi : ∀ q, q ≠ [] → q <:+ path → tree.usedBytes q + bytes ≤ tree.capacity q)
    (ho : OthersWait task system)
    (hh : system.pool.memoryForTask.held task = tree.used + bytes + inflight') (hinf : 0 ≤ inflight') :
    Accounts task inflight' ((MemoryTarget.raise bytes path { tree with system := system }).returns path bytes) where
  bounds q := by
    obtain ⟨hq0, hq1⟩ := h.bounds q
    show 0 ≤ (MemoryTarget.raise bytes path { tree with system := system }).current q ∧
      (MemoryTarget.raise bytes path { tree with system := system }).current q ≤ _
    rw [raise_current]
    split
    · rename_i hq
      obtain ⟨name, parent, rfl⟩ := exists_cons_of_ne_nil hq.1
      have hlo' := hl _ hq.2
      have hh' := hhi _ hq.1 hq.2
      simp only [Tree.returns, raise_capacity]
      exact ⟨hlo', hh'⟩
    · simp only [Tree.returns, raise_capacity, Int.add_zero]
      exact ⟨hq0, hq1⟩
  used_nonneg := by
    simp only [Tree.returns, raise_used]
    exact hl [] nil_suffix
  recorded_eq := by
    simp only [Tree.returns, raise_recorded, raise_used, h.recorded_eq]
  sums q := by
    have hu : ((MemoryTarget.raise bytes path { tree with system := system }).returns path bytes).usedBytes q =
        (MemoryTarget.raise bytes path { tree with system := system }).usedBytes q := by cases q <;> rfl
    have hs : Tree.usedBytes { tree with system := system } q = tree.usedBytes q := by cases q <;> rfl
    rw [hu, raise_usedBytes, hs, h.sums]
    simp only [Tree.returns, raise_returned, subtreeSum_append]
  held := by
    simp only [Tree.returns, raise_system, raise_used]
    exact hh
  inflight_nonneg := hinf
  others := by
    simp only [Tree.returns, raise_system]
    exact ho
  registered := by
    simp only [Tree.returns, raise_returned, Tree.Exists, raise_nodes]
    refine forall_mem_append.mpr ⟨h.registered, ?_⟩
    exact forall_mem_singleton.mpr hexi
  closed := by
    simp only [Tree.returns, Tree.Exists, raise_nodes]
    exact h.closed
  nodup := by
    simp only [Tree.returns, raise_nodes]
    exact h.nodup

theorem exists_of_suffix (h : Accounts task inflight tree) {p : Path} :
    ∀ {q : Path}, tree.Exists q → p <:+ q → tree.Exists p := by
  intro q
  induction q with
  | nil =>
    intro _ hs
    exact .inl (suffix_nil.mp hs)
  | cons name parent ih =>
    intro hexi hs
    rcases suffix_cons_iff.mp hs with rfl | hp
    · exact hexi
    · exact ih (h.closed _ (hexi.resolve_left (cons_ne_nil _ _))).2 hp

theorem usedBytes_eq_zero (h : Accounts task inflight tree) {path : Path} (hno : ¬tree.Exists path) :
    tree.usedBytes path = 0 := by
  have hn : (tree.returned.filter fun entry => decide (path <:+ entry.1)) = [] := by
    rw [filter_eq_nil_iff]
    intro entry hen hs
    exact hno (h.exists_of_suffix (h.registered entry hen) (of_decide_eq_true hs))
  rw [h.sums, subtreeSum, hn]
  rfl

end Accounts

/-- What a repay gives back: at most what was asked for and what each node on the path
uses. -/
structure Repaid (task : ℤ) (path : Path) (size : ℤ) (tree : Tree) (freed : ℤ) (system : System) : Prop where
  nonneg : 0 ≤ freed
  le_size : freed ≤ size
  le_used : ∀ q, q <:+ path → freed ≤ tree.usedBytes q
  held : system.pool.memoryForTask.held task = tree.system.pool.memoryForTask.held task - freed
  waiting : system.waiting = tree.system.waiting

variable {task inflight : ℤ}

/-- `ConsumerTargetBridge::repay`: its checks hold. -/
theorem bridgeRepay_spec {tree : Tree} (h : Accounts task inflight tree) {size : ℤ} (hs : 0 ≤ size) :
    ∃ freed system, bridgeRepay task size tree = .ok (freed, raise (-freed) [] { tree with system := system }) ∧
      Repaid task [] size tree freed system := by
  have hu := h.used_nonneg
  by_cases hz : size = 0
  · refine ⟨0, tree.system, ?_, le_rfl, hs, fun q hq => ?_, by omega, rfl⟩
    · rw [bridgeRepay, if_pos hz, Int.neg_zero, raise_zero]
    · rw [suffix_nil.mp hq]
      exact hu
  · have hr := releaseMemory_spec tree.system.pool
      (show 0 ≤ min tree.used size by omega) task
    have ha : (tree.system.pool.releaseMemory (min tree.used size) task).1 = min tree.used size := by
      have hh := h.held
      have hinf := h.inflight_nonneg
      rw [hr.amount]
      omega
    refine ⟨min tree.used size,
      { tree.system with pool := (tree.system.pool.releaseMemory (min tree.used size) task).2 }, ?_, by omega, by omega,
      fun q hq => ?_, ?_, rfl⟩
    · simp only [bridgeRepay, hz, if_false, ha]
      rw [if_neg (by omega), if_neg (by omega)]
      rfl
    · rw [suffix_nil.mp hq]
      exact min_le_left _ _
    · rw [hr.held, ha]

/-- `TreeMemoryTargetNode::repay`. -/
theorem repay_spec {tree : Tree} (h : Accounts task inflight tree) (path : Path) : ∀ {size : ℤ}, 0 ≤ size →
      ∃ freed system, repay task path size tree = .ok (freed, raise (-freed) path { tree with system := system }) ∧
        Repaid task path size tree freed system := by
  induction path with
  | nil =>
    intro size hs
    exact bridgeRepay_spec h hs
  | cons name parent ih =>
    intro size hs
    have hc := (h.bounds (name :: parent)).1
    obtain ⟨freed, system, hrepay, hrepaid⟩ := ih (show 0 ≤ min (tree.current (name :: parent)) size by omega)
    have hle := hrepaid.le_size
    refine ⟨freed, system, ?_, hrepaid.nonneg, by omega, fun q hq => ?_, hrepaid.held, hrepaid.waiting⟩
    · rw [repay, hrepay]
      rfl
    · rcases suffix_cons_iff.mp hq with rfl | hp
      · show freed ≤ tree.current (name :: parent)
        omega
      · exact hrepaid.le_used q hp

/-- The tree after repays: nothing but used bytes, which are not raised, and the record of
the calls. -/
structure Shrunk (before after : Tree) : Prop where
  nodes_eq : after.nodes = before.nodes
  capacity_eq : after.capacity = before.capacity
  current_le : ∀ path, after.current path ≤ before.current path
  returned : ∃ repays, after.returned = before.returned ++ repays ∧ ∀ entry ∈ repays, entry.2 ≤ 0

namespace Shrunk

theorem refl (tree : Tree) : Shrunk tree tree :=
  ⟨rfl, rfl, fun _ => le_rfl, [], by simp, by simp⟩

theorem trans {first snd third : Tree} (h : Shrunk first snd) (k : Shrunk snd third) : Shrunk first third := by
  obtain ⟨repays, hrepays, hn⟩ := h.returned
  obtain ⟨repays', hrepays', hn'⟩ := k.returned
  refine ⟨k.nodes_eq.trans h.nodes_eq, k.capacity_eq.trans h.capacity_eq,
    fun path => (k.current_le path).trans (h.current_le path), repays ++ repays', ?_, ?_⟩
  · rw [hrepays', hrepays, append_assoc]
  · exact forall_mem_append.mpr ⟨hn, hn'⟩

theorem system (tree : Tree) (system : System) : Shrunk tree { tree with system := system } :=
  ⟨rfl, rfl, fun _ => le_rfl, [], by simp, by simp⟩

end Shrunk

/-- A repay succeeds and lowers the used bytes up to the bridge. -/
theorem repayOn_spec {tree : Tree} (h : Accounts task inflight tree) {path : Path}
    (hexi : tree.Exists path) {size : ℤ} (hs : 0 ≤ size) :
    ∃ freed after, repayOn task path size tree = .ok (freed, after) ∧ 0 ≤ freed ∧ freed ≤ size ∧
      Accounts task inflight after ∧ Shrunk tree after := by
  obtain ⟨freed, system, hrepay, hrepaid⟩ := repay_spec h path hs
  refine ⟨freed, (raise (-freed) path { tree with system := system }).returns path (-freed), ?_, hrepaid.nonneg,
    hrepaid.le_size, ?_, ?_⟩
  · rw [repayOn, hrepay]
    rfl
  · have hh := h.held
    have hn := hrepaid.nonneg
    refine h.raise hexi (fun q hq => ?_) (fun q hne hq => ?_) ?_ ?_ h.inflight_nonneg
    · have hle := hrepaid.le_used q hq
      omega
    · have hb := (h.bounds q).2
      obtain ⟨name, parent, rfl⟩ := exists_cons_of_ne_nil hne
      show tree.current (name :: parent) + -freed ≤ _
      omega
    · intro waiter hwaiter
      rw [hrepaid.waiting] at hwaiter
      exact h.others waiter hwaiter
    · rw [hrepaid.held]
      omega
  · have hn := hrepaid.nonneg
    refine ⟨raise_nodes _ _ _, raise_capacity _ _ _, fun q => ?_, [(path, -freed)], ?_, ?_⟩
    · show (raise (-freed) path { tree with system := system }).current q ≤ _
      rw [raise_current]
      split
      · show tree.current q + -freed ≤ tree.current q
        omega
      · exact (Int.add_zero _).le
    · rw [Tree.returns, raise_returned]
    · simpa using hn

theorem exists_of_bind_ok {ε α β : Type} {x : Except ε α} {f : α → Except ε β} {b : β} (h : (x >>= f) = .ok b) :
    ∃ a, x = .ok a ∧ f a = .ok b := by
  cases x with
  | error e => cases h
  | ok a => exact ⟨a, rfl, h⟩

section Spill

variable {σ α : Type}

def Repays (task : ℤ) (act : World σ → Except Failure (ℤ × World σ)) : Prop :=
  ∀ inflight world answer, Accounts task inflight world.2 → act world = .ok answer →
    Accounts task inflight answer.2.2 ∧ Shrunk world.2 answer.2.2

theorem repayAll_spec (repays : List (Path × ℕ)) :
    ∀ {tree after : Tree}, Accounts task inflight tree → repayAll task repays tree = .ok after →
      Accounts task inflight after ∧ Shrunk tree after := by
  induction repays with
  | nil =>
    intro tree after h ha
    cases ha
    exact ⟨h, Shrunk.refl tree⟩
  | cons entry rest ih =>
    intro tree after h ha
    rw [repayAll] at ha
    split at ha
    · rename_i hexi
      obtain ⟨freed, next, hrepay, _, _, hn, hs⟩ := repayOn_spec h hexi (Int.natCast_nonneg entry.2)
      rw [hrepay] at ha
      obtain ⟨hl, hr⟩ := ih hn ha
      exact ⟨hl, hs.trans hr⟩
    · exact ih h ha

variable (task : Task σ)

theorem repays_spillBy (node : Path) (spiller : Spiller σ) (bytes : ℤ) :
    Repays task.taskAttemptId (spillBy task node spiller bytes) := by
  intro inflight world answer h ha
  obtain ⟨after, haf, hreturn⟩ := exists_of_bind_ok ha
  cases hreturn
  exact repayAll_spec _ h haf

theorem repays_drain {task : ℤ} {act : α → ℤ → World σ → Except Failure (ℤ × World σ)}
    (hact : ∀ a bytes, Repays task (act a bytes)) (sources : List α) :
    ∀ bytes, Repays task (drain act sources bytes) := by
  induction sources with
  | nil =>
    intro bytes inflight world answer h ha
    cases ha
    exact ⟨h, Shrunk.refl _⟩
  | cons source sources ih =>
    intro bytes inflight world answer h ha
    rw [drain] at ha
    split at ha
    · cases ha
      exact ⟨h, Shrunk.refl _⟩
    · obtain ⟨⟨spilled, next⟩, hn, hr⟩ := exists_of_bind_ok ha
      obtain ⟨hac, hs⟩ := hact source bytes inflight world _ h hn
      obtain ⟨hl, hs'⟩ := ih _ inflight next answer hac hr
      exact ⟨hl, hs.trans hs'⟩

theorem repays_spillPhase {spillChild : Path → ℤ → World σ → Except Failure (ℤ × World σ)}
    (hch : ∀ child bytes, Repays task.taskAttemptId (spillChild child bytes)) (node : Path) (phase : SpillerPhase)
    (bytes : ℤ) : Repays task.taskAttemptId (spillPhase task spillChild node phase bytes) := by
  intro inflight world answer h ha
  obtain ⟨⟨remaining, next⟩, hn, ha⟩ := exists_of_bind_ok ha
  obtain ⟨⟨remaining', last⟩, hl, hreturn⟩ := exists_of_bind_ok ha
  cases hreturn
  obtain ⟨hc, hsh⟩ := repays_drain hch _ bytes inflight world _ h hn
  obtain ⟨hs, hsh'⟩ := repays_drain (repays_spillBy task node) _ remaining inflight next _ hc hl
  exact ⟨hs, hsh.trans hsh'⟩

/-- Spilling the tree only repays. -/
theorem repays_spillTree (levels : ℕ) : ∀ node bytes, Repays task.taskAttemptId (spillTree task levels node bytes) := by
  induction levels with
  | zero =>
    intro node bytes inflight world answer h ha
    cases ha
    exact ⟨h, Shrunk.refl _⟩
  | succ levels ih =>
    intro node bytes inflight world answer h ha
    obtain ⟨⟨remaining, last⟩, hl, hreturn⟩ := exists_of_bind_ok ha
    cases hreturn
    have hd := repays_drain (repays_spillPhase task ih node) _ bytes inflight world _ h hl
    exact hd

theorem repays_bridgeSpill (async : Bool) (bytes : ℤ) : Repays task.taskAttemptId (bridgeSpill task async bytes) := by
  intro inflight world answer h ha
  rw [bridgeSpill] at ha
  split at ha
  · cases ha
    exact ⟨h, Shrunk.refl _⟩
  · exact repays_spillTree task _ [] bytes inflight world answer h ha

end Spill

section Borrow

variable {σ : Type} {task : Task σ} {thread : Thread}
variable {world : World σ} {answer : ℤ × World σ}

theorem Accounts.withSystem {task inflight inflight' : ℤ} {tree : Tree} (h : Accounts task inflight tree)
    {system : System} (hh : system.pool.memoryForTask.held task = tree.used + inflight')
    (hinf : 0 ≤ inflight') (ho : OthersWait task system) :
    Accounts task inflight' { tree with system := system } := by
  refine { h with sums := fun path => ?_, held := hh, inflight_nonneg := hinf, others := ho }
  have hu : Tree.usedBytes { tree with system := system } path = tree.usedBytes path := by cases path <;> rfl
  exact h.sums path

/-- What the task has got and the bridge does not know of yet. -/
structure InFlight (task : ℤ) (required : ℤ) (before : Tree) (got : ℤ) (after : Tree) : Prop where
  accounts : Accounts task got after
  shrunk : Shrunk before after
  le_required : got ≤ required

theorem acquireFromPool_spec {inflight numBytes : ℤ} {pooled : QuotaAnswer × List Event}
    (h : Accounts task.taskAttemptId inflight world.2)
    (han : acquireFromPool task thread numBytes pooled world = .ok answer) :
    InFlight task.taskAttemptId (inflight + numBytes) world.2 (inflight + answer.1) answer.2.2 := by
  obtain ⟨⟨got, system⟩, hg, hreturn⟩ := exists_of_bind_ok han
  cases hreturn
  have ha := acquireMemory_spec h.others hg
  have hn := ha.nonneg
  have hle := ha.le_numBytes
  have hh := ha.held
  have hb := h.held
  have hinf := h.inflight_nonneg
  dsimp only at hn hle hh
  refine ⟨h.withSystem ?_ ?_ ha.others, Shrunk.system _ _, ?_⟩
  · omega
  · show 0 ≤ inflight + got
    omega
  · show inflight + got ≤ inflight + numBytes
    omega

theorem spillRound_spec {inflight : ℤ} (h : Accounts task.taskAttemptId inflight world.2) {overaged : ℤ × System}
    (ho : getOveragedMemoryForTask task.taskAttemptId world.2.system = .ok overaged) {bytes : ℤ}
    (hsp : bridgeSpill task thread.async bytes (world.1, { world.2 with system := overaged.2 }) = .ok answer) :
    Accounts task.taskAttemptId inflight answer.2.2 ∧ Shrunk world.2 answer.2.2 := by
  obtain ⟨hh, hw⟩ := getOveragedMemoryForTask_held ho
  have hoth : OthersWait task.taskAttemptId overaged.2 := by
    intro waiter hwaiter
    rw [hw] at hwaiter
    exact h.others waiter hwaiter
  have ha : Accounts task.taskAttemptId inflight { world.2 with system := overaged.2 } := by
    refine h.withSystem ?_ h.inflight_nonneg hoth
    rw [hh]
    exact h.held
  obtain ⟨hl, hs⟩ := repays_bridgeSpill task thread.async bytes inflight _ answer ha hsp
  exact ⟨hl, (Shrunk.system world.2 overaged.2).trans hs⟩

/-- The rounds of spilling and acquiring keep the accounts. -/
theorem acquireMore_spec {required : ℤ} (acquisitions : List (QuotaAnswer × List Event)) :
    ∀ {got : ℤ} {world : World σ} {answer : ℤ × World σ}, Accounts task.taskAttemptId got world.2 → got ≤ required →
      acquireMore task thread required acquisitions got world = .ok answer →
      InFlight task.taskAttemptId required world.2 answer.1 answer.2.2 := by
  induction acquisitions with
  | nil => ?_
  | cons pooled acquisitions ih => ?_
  all_goals
    intro got world answer h hle ha
    rw [acquireMore] at ha
    split at ha
    · cases ha
      exact ⟨h, Shrunk.refl _, hle⟩
    obtain ⟨overaged, ho, ha⟩ := exists_of_bind_ok ha
    obtain ⟨spilled, hsp, ha⟩ := exists_of_bind_ok ha
    obtain ⟨hacc, hs⟩ := spillRound_spec h ho hsp
    dsimp only at ha
    split at ha
    rotate_left
    · cases ha
      exact ⟨hacc, hs, hle⟩
  · cases ha
  · obtain ⟨more, hm, ha⟩ := exists_of_bind_ok ha
    have hac := acquireFromPool_spec hacc hm
    have hr := ih hac.accounts (hac.le_required.trans (by omega)) ha
    exact ⟨hr.accounts, (hs.trans hac.shrunk).trans hr.shrunk, hr.le_required⟩

variable (h : Accounts task.taskAttemptId 0 world.2)

include h in
theorem acquireExecutionMemory_spec {required : ℤ}
    (ha : acquireExecutionMemory task thread required world = .ok answer) :
    InFlight task.taskAttemptId required world.2 answer.1 answer.2.2 := by
  rw [acquireExecutionMemory] at ha
  split at ha
  · cases ha
  · split at ha
    · cases ha
    · obtain ⟨⟨got, next⟩, hg, ha⟩ := exists_of_bind_ok ha
      have hac := acquireFromPool_spec h hg
      simp only [Int.zero_add] at hac
      have hm := acquireMore_spec _ hac.accounts hac.le_required ha
      exact ⟨hm.accounts, hac.shrunk.trans hm.shrunk, hm.le_required⟩

/-- A borrow up to the point where its grant is recorded along the path. -/
structure Borrowed (task : ℤ) (path : Path) (size : ℤ) (before : Tree) (granted : ℤ) (after : Tree) : Prop where
  reached : ∃ spilled, InFlight task (max 0 size) before granted spilled ∧ after = raise granted path spilled ∧
    ∀ q, q ≠ [] → q <:+ path → spilled.usedBytes q + granted ≤ spilled.capacity q

include h in
/-- A borrow of the bridge records what it acquired. -/
theorem bridgeBorrow_spec {size : ℤ} (ha : bridgeBorrow task thread size world = .ok answer) :
    Borrowed task.taskAttemptId [] size world.2 answer.1 answer.2.2 := by
  rw [bridgeBorrow] at ha
  split at ha
  · cases ha
    refine ⟨world.2, ⟨h, Shrunk.refl _, le_max_left _ _⟩, (raise_zero [] world.2).symm, fun q hne hq => ?_⟩
    exact absurd (suffix_nil.mp hq) hne
  · obtain ⟨⟨acquired, next⟩, hac, hreturn⟩ := exists_of_bind_ok ha
    have hf := acquireExecutionMemory_spec h hac
    cases hreturn
    refine ⟨next.2, ⟨hf.accounts, hf.shrunk, hf.le_required.trans (le_max_right _ _)⟩, rfl,
      fun q hne hq => ?_⟩
    exact absurd (suffix_nil.mp hq) hne

/-- `TreeMemoryTargetNode::borrow`. The free bytes that a node clips against can only grow
while its parent borrows. -/
theorem borrow_spec (path : Path) :
    ∀ {size : ℤ} {world : World σ} {answer : ℤ × World σ}, Accounts task.taskAttemptId 0 world.2 →
      borrow task thread path size world = .ok answer →
      Borrowed task.taskAttemptId path size world.2 answer.1 answer.2.2 := by
  induction path with
  | nil =>
    intro size world answer h ha
    exact bridgeBorrow_spec h ha
  | cons name parent ih =>
    intro size world answer h ha
    rw [borrow] at ha
    split at ha
    · cases ha
      refine ⟨world.2, ⟨h, Shrunk.refl _, le_max_left _ _⟩, (raise_zero _ world.2).symm, fun q hne _ => ?_⟩
      obtain ⟨first, rest, rfl⟩ := exists_cons_of_ne_nil hne
      exact (Int.add_zero _).le.trans (h.bounds _).2
    · obtain ⟨⟨granted, next⟩, hg, hreturn⟩ := exists_of_bind_ok ha
      obtain ⟨spilled, hf, haf, hc⟩ := (ih h hg).reached
      cases hreturn
      have hle := hf.le_required
      have hs := hf.shrunk.current_le (name :: parent)
      have hfr := (h.bounds (name :: parent)).2
      refine ⟨spilled, ⟨hf.accounts, hf.shrunk, by omega⟩, ?_, fun q hne hq => ?_⟩
      · show next.2.inc (name :: parent) granted = raise granted (name :: parent) spilled
        rw [raise, ← haf]
      · rcases suffix_cons_iff.mp hq with rfl | hp
        · show spilled.current (name :: parent) + granted ≤ spilled.capacity (name :: parent)
          rw [hf.shrunk.capacity_eq]
          omega
        · exact hc q hne hp

include h in
/-- A borrow on a node keeps the accounts. What was recorded before it returned are the
repays of the spillers. -/
theorem borrowOn_spec {path : Path} {size : ℤ} (hexi : world.2.Exists path)
    (ha : borrowOn task thread path size world = .ok answer) :
    Accounts task.taskAttemptId 0 answer.2.2 ∧ 0 ≤ answer.1 ∧ answer.1 ≤ max 0 size ∧ answer.2.2.nodes = world.2.nodes ∧
      ∃ repays, answer.2.2.returned = world.2.returned ++ repays ++ [(path, answer.1)] ∧
        ∀ entry ∈ repays, entry.2 ≤ 0 := by
  obtain ⟨⟨granted, next⟩, hg, hreturn⟩ := exists_of_bind_ok ha
  cases hreturn
  obtain ⟨spilled, hf, haf, hc⟩ := (borrow_spec path h hg).reached
  obtain ⟨repays, hrepays, hn⟩ := hf.shrunk.returned
  have hno := hf.accounts.inflight_nonneg
  have hs : spilled.Exists path := by
    rw [Tree.Exists, hf.shrunk.nodes_eq]
    exact hexi
  have hu : ∀ q, 0 ≤ spilled.usedBytes q := by
    intro q
    cases q with
    | nil => exact hf.accounts.used_nonneg
    | cons name parent => exact (hf.accounts.bounds _).1
  have hr : Accounts task.taskAttemptId 0 ((raise granted path spilled).returns path granted) := by
    refine hf.accounts.raise hs (fun q _ => ?_) hc hf.accounts.others ?_ le_rfl
    · have hq := hu q
      omega
    · rw [hf.accounts.held]
      omega
  rw [haf]
  refine ⟨hr, hno, hf.le_required, ?_, repays, ?_, hn⟩
  · rw [Tree.returns, raise_nodes, hf.shrunk.nodes_eq]
  · rw [Tree.returns, raise_returned, hrepays]

end Borrow

end Bolt.MemoryTarget
