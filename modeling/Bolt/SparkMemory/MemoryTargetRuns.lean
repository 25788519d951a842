import Bolt.SparkMemory.MemoryTargetAccounts

/-!
# The accounts after every sequence of calls

Every call that returns leaves the accounts in order, whatever the spillers repay while it
runs, so the used bytes of the nodes, the bridge and the pool agree after every sequence
of calls.
-/

namespace Bolt.MemoryTarget

open Lib.Ledgers ExecutionPool TaskMemory List

section Children

variable {task inflight : ℤ} {tree : Tree}

theorem mem_children {path child : Path} :
    child ∈ tree.children path ↔ child ∈ tree.nodes ∧ ∃ name, child = name :: path := by
  rw [Tree.children, mem_filter]
  refine and_congr_right fun _ => ?_
  cases child with
  | nil => simp
  | cons name parent => simp [eq_comm]

theorem exists_child_suffix {path q : Path} (hs : path <:+ q) (hne : q ≠ path) :
    ∃ name, name :: path <:+ q ∧ ∀ other, other :: path <:+ q → other = name := by
  obtain ⟨above, rfl⟩ := hs
  rcases eq_nil_or_concat' above with rfl | ⟨front, name, rfl⟩
  · exact absurd rfl hne
  · have hn : name :: path <:+ front ++ [name] ++ path := ⟨front, by simp⟩
    refine ⟨name, hn, fun other ho => ?_⟩
    have hb := suffix_of_suffix_length_le ho hn le_rfl
    exact (cons.inj (hb.eq_of_length rfl)).1

/-- The subtree of a node is the node itself and the subtrees of its children. -/
theorem suffix_count (h : Accounts task inflight tree) (path : Path) {q : Path} (hq : tree.Exists q) (bytes : ℤ) :
    (if path <:+ q then bytes else 0) =
      ((tree.children path).map fun child => if child <:+ q then bytes else 0).sum + if q = path then bytes else 0 := by
  by_cases hs : path <:+ q
  · by_cases heq : q = path
    · subst heq
      have hn : ∀ child ∈ tree.children q, ¬child <:+ q := by
        intro child hc hcs
        obtain ⟨_, name, rfl⟩ := mem_children.mp hc
        simpa using hcs.length_le
      rw [map_congr_left (g := fun _ => 0) fun child hc => if_neg (hn child hc)]
      simp
    · obtain ⟨name, hna, hunique⟩ := exists_child_suffix hs heq
      have hexi := h.exists_of_suffix hq hna
      have hc : name :: path ∈ tree.children path :=
        mem_children.mpr ⟨hexi.resolve_left (cons_ne_nil _ _), name, rfl⟩
      have hsi := sum_map_eq_nsmul_single (name :: path) (l := tree.children path)
        (fun child => if child <:+ q then bytes else 0) fun child hne hm => by
          obtain ⟨_, other, rfl⟩ := mem_children.mp hm
          exact if_neg fun ho => hne (by rw [hunique other ho])
      have hco := @count_eq_one_of_mem _ instBEqOfDecidableEq _ _ (tree.children path) (h.nodup.filter _) hc
      rw [hsi, hco, if_pos hs, if_pos hna, if_neg heq]
      simp
  · have hn : ∀ child ∈ tree.children path, ¬child <:+ q := by
      intro child hc hcs
      obtain ⟨_, name, rfl⟩ := mem_children.mp hc
      exact hs ((suffix_cons name path).trans hcs)
    have hne : q ≠ path := fun heq => hs (heq ▸ suffix_rfl)
    rw [map_congr_left (g := fun _ => 0) fun child hc => if_neg (hn child hc), if_neg hs, if_neg hne]
    simp

/-- The used bytes of a node are those of its children and what was borrowed on it directly. -/
theorem usedBytes_children (h : Accounts task inflight tree) (path : Path) :
    tree.usedBytes path = ((tree.children path).map tree.usedBytes).sum + directSum tree.returned path := by
  have hsp : ∀ returned : List (Path × ℤ), (∀ entry ∈ returned, tree.Exists entry.1) →
      subtreeSum returned path =
        ((tree.children path).map (subtreeSum returned)).sum + directSum returned path := by
    intro returned
    induction returned using reverseRecOn with
    | nil =>
      intro _
      show 0 = ((tree.children path).map fun _ => 0).sum + 0
      simp
    | append_singleton returned entry ih =>
      intro hr
      obtain ⟨hb, hen⟩ := forall_mem_append.mp hr
      have hco := suffix_count h path (hen entry (mem_singleton_self _)) entry.2
      have hd : directSum (returned ++ [entry]) path =
          directSum returned path + if entry.1 = path then entry.2 else 0 := by
        by_cases heq : entry.1 = path <;> simp [directSum, heq]
      have hc : ((tree.children path).map (subtreeSum (returned ++ [entry]))).sum =
          ((tree.children path).map (subtreeSum returned)).sum +
            ((tree.children path).map fun child => if child <:+ entry.1 then entry.2 else 0).sum := by
        rw [← sum_map_add]
        exact congrArg sum (map_congr_left fun child _ => subtreeSum_append returned entry child)
      rw [subtreeSum_append, ih hb, hco, hd, hc]
      omega
  rw [h.sums, hsp tree.returned h.registered]
  have hs : tree.usedBytes = subtreeSum tree.returned := funext h.sums
  rw [hs]

end Children

section Calls

variable {σ : Type} {task : Task σ} {world : World σ} {answer : ℤ × World σ}

theorem newChild_spec {task inflight : ℤ} {tree after : Tree} (h : Accounts task inflight tree) {parent : Path}
    (hp : tree.Exists parent) {name : String} {capacity : ℕ}
    (ha : newChild parent name capacity tree = .ok after) : Accounts task inflight after := by
  rw [newChild] at ha
  split at ha
  · cases ha
  · rename_i hn
    cases ha
    have hexi : ∀ path, tree.Exists path → path = [] ∨ path ∈ tree.nodes ++ [name :: parent] :=
      fun path hpath => hpath.imp_right (mem_append_left _)
    have hu : tree.usedBytes (name :: parent) = 0 :=
      h.usedBytes_eq_zero fun hold => hn (hold.resolve_left (cons_ne_nil _ _))
    refine { h with
      bounds := fun path => ?_, sums := fun path => ?_
      registered := fun entry hen => hexi _ (h.registered entry hen), closed := ?_, nodup := ?_ }
    · obtain ⟨hl, hh⟩ := h.bounds path
      refine ⟨hl, ?_⟩
      by_cases hpath : path = name :: parent
      · subst hpath
        have hc : tree.current (name :: parent) = 0 := hu
        simp only [Function.update_self, hc]
        exact Int.natCast_nonneg capacity
      · simp only [Function.update_of_ne hpath]
        exact hh
    · rw [← h.sums path]
      cases path <;> rfl
    · refine forall_mem_append.mpr ⟨fun path hpath => ?_, forall_mem_singleton.mpr ⟨?_, ?_⟩⟩
      · exact ⟨(h.closed path hpath).1, hexi _ (h.closed path hpath).2⟩
      · exact cons_ne_nil _ _
      · exact hexi parent hp
    · rw [nodup_append']
      refine ⟨h.nodup, nodup_singleton _, fun path hold hin => hn ?_⟩
      rwa [mem_singleton.mp hin] at hold

/-- A call that returns leaves the accounts in order. -/
theorem call_accounts (h : Accounts task.taskAttemptId 0 world.2) (c : Call)
    (ha : call task world c = .ok answer) : Accounts task.taskAttemptId 0 answer.2.2 := by
  cases c with
  | newChild parent name capacity =>
    rw [call] at ha
    split at ha
    · rename_i hp
      obtain ⟨tree, ht, hreturn⟩ := exists_of_bind_ok ha
      cases hreturn
      exact newChild_spec h hp ht
    · cases ha
      exact h
  | borrow path size thread =>
    rw [call] at ha
    split at ha
    · rename_i hexi
      exact (borrowOn_spec h hexi ha).1
    · cases ha
      exact h
  | repay path size =>
    rw [call] at ha
    split at ha
    · rename_i hexi
      obtain ⟨freed, after, hrepay, _, _, haf, _⟩ := repayOn_spec h hexi (Int.natCast_nonneg size)
      rw [hrepay] at ha
      cases ha
      exact haf
    · cases ha
      exact h
  | overAcquireBorrow target overTarget size expected thread overThread =>
    rw [call] at ha
    split at ha
    · rename_i hexi
      rw [overAcquireBorrow] at ha
      split at ha
      · cases ha
      · obtain ⟨⟨granted, next⟩, hg, ha⟩ := exists_of_bind_ok ha
        obtain ⟨hn, _, _, hnodes, _⟩ := borrowOn_spec h hexi.1 hg
        dsimp only at ha
        split at ha
        · obtain ⟨⟨diff, last⟩, hdiff, hreturn⟩ := exists_of_bind_ok ha
          cases hreturn
          have ho : next.2.Exists overTarget := by
            rw [Tree.Exists, hnodes]
            exact hexi.2
          exact (borrowOn_spec hn ho hdiff).1
        · cases ha
          exact hn
    · cases ha
      exact h
  | overAcquireRepay target overTarget size =>
    rw [call] at ha
    split at ha
    · rename_i hexi
      rw [overAcquireRepay] at ha
      split at ha
      · cases ha
      · obtain ⟨freed, next, hrepay, _, _, hn, hs⟩ := repayOn_spec h hexi.1 (Int.natCast_nonneg size)
        have ho : next.Exists overTarget := by
          rw [Tree.Exists, hs.nodes_eq]
          exact hexi.2
        have hu : 0 ≤ next.usedBytes overTarget := by
          cases overTarget with
          | nil => exact hn.used_nonneg
          | cons name parent => exact (hn.bounds _).1
        obtain ⟨freedOver, last, hrepayOver, _, _, hl, _⟩ := repayOn_spec hn ho hu
        simp only [hrepay, bind, Except.bind, hrepayOver] at ha
        split at ha
        · cases ha
        · split at ha
          · cases ha
          · cases ha
            exact hl
    · cases ha
      exact h
  | other s =>
    cases ha
    obtain ⟨hoth, hh⟩ := otherStep_held h.others s
    refine h.withSystem ?_ le_rfl hoth
    rw [hh]
    exact h.held

theorem runCalls_accounts (calls : List Call) :
    ∀ {world after : World σ}, Accounts task.taskAttemptId 0 world.2 → runCalls task calls world = .ok after →
      Accounts task.taskAttemptId 0 after.2 := by
  induction calls with
  | nil =>
    intro world after h haf
    cases haf
    exact h
  | cons c calls ih =>
    intro world after h haf
    obtain ⟨answer, ha, hr⟩ := exists_of_bind_ok haf
    exact ih (call_accounts h c ha) hr

theorem accounts_create {task : ℤ} {system : System} (hh : system.pool.memoryForTask.held task = 0)
    (ho : OthersWait task system) : Accounts task 0 { system := system } where
  bounds _ := ⟨le_rfl, Int.natCast_nonneg _⟩
  used_nonneg := le_rfl
  recorded_eq := rfl
  sums path := by cases path <;> rfl
  held := hh
  inflight_nonneg := le_rfl
  others := ho
  registered := by simp
  closed := by simp
  nodup := nodup_nil

end Calls

/-- The used bytes of the nodes, the bridge and the pool agree. -/
structure TreeSafe (task : ℤ) (tree : Tree) : Prop where
  bounds : ∀ path ∈ tree.nodes, 0 ≤ tree.usedBytes path ∧ tree.usedBytes path ≤ tree.capacity path
  used_nonneg : 0 ≤ tree.used
  children : ∀ path, tree.Exists path →
    tree.usedBytes path = ((tree.children path).map tree.usedBytes).sum + directSum tree.returned path
  held : tree.used = tree.system.pool.memoryForTask.held task
  recorded : tree.recorded = tree.used

/-- A borrow returns by how much it has raised the used bytes of its node; what changed them
besides are the repays of the spillers in the subtree of the node. -/
structure BorrowExact (path : Path) (size : ℤ) (before : Tree) (granted : ℤ) (after : Tree) : Prop where
  granted_mem : 0 ≤ granted ∧ granted ≤ max 0 size
  raised : ∃ repays, after.returned = before.returned ++ repays ++ [(path, granted)] ∧
    (∀ entry ∈ repays, entry.2 ≤ 0) ∧
    after.usedBytes path = before.usedBytes path + subtreeSum repays path + granted

theorem TreeSafe.of_accounts {task : ℤ} {tree : Tree} (h : Accounts task 0 tree) : TreeSafe task tree where
  bounds path hpath := by
    obtain ⟨name, parent, rfl⟩ := exists_cons_of_ne_nil (h.closed path hpath).1
    exact h.bounds _
  used_nonneg := h.used_nonneg
  children path _ := usedBytes_children h path
  held := by
    rw [h.held]
    omega
  recorded := h.recorded_eq

theorem BorrowExact.of_accounts {σ : Type} {task : Task σ} {thread : Thread} {path : Path} {size : ℤ} {world : World σ}
    (h : Accounts task.taskAttemptId 0 world.2) (hexi : world.2.Exists path) {answer : ℤ × World σ}
    (ha : borrowOn task thread path size world = .ok answer) :
    BorrowExact path size world.2 answer.1 answer.2.2 := by
  obtain ⟨haf, hno, hle, _, repays, hreturned, hn⟩ := borrowOn_spec h hexi ha
  refine ⟨⟨hno, hle⟩, repays, hreturned, hn, ?_⟩
  rw [haf.sums, h.sums, hreturned, subtreeSum_append, if_pos suffix_rfl]
  simp [subtreeSum, filter_append]

/-- After every sequence of calls that return, on every tree over a bridge whose task held
nothing at first, with every behaviour of the spillers and of the other tasks: each node
uses between nothing and its capacity, an inner node what its children use and what was
borrowed on it directly, the bridge what the task holds in the pool, and a further borrow
that returns has raised the used bytes of its node by what it returns. -/
theorem run_treeSafe {σ : Type} (task : Task σ) (spillers : σ) (system : System)
    (hheld : system.pool.memoryForTask.held task.taskAttemptId = 0) (hothers : OthersWait task.taskAttemptId system)
    (calls : List Call) (world : World σ) (hrun : runCalls task calls (spillers, { system := system }) = .ok world) :
    TreeSafe task.taskAttemptId world.2 ∧
      ∀ path size thread answer, world.2.Exists path → call task world (.borrow path size thread) = .ok answer →
        BorrowExact path size world.2 answer.1 answer.2.2 ∧ TreeSafe task.taskAttemptId answer.2.2 := by
  have haccounts := runCalls_accounts calls (accounts_create hheld hothers) hrun
  refine ⟨TreeSafe.of_accounts haccounts, fun path size thread answer hexists hanswer => ?_⟩
  have hafter := call_accounts haccounts _ hanswer
  rw [call, if_pos hexists] at hanswer
  exact ⟨BorrowExact.of_accounts haccounts hexists hanswer, TreeSafe.of_accounts hafter⟩

def spillingTask : Task Unit where
  taskAttemptId := 1
  getSpillers _ path :=
    if path = ["a", "r"] then
      [{ applicablePhases := fun _ => true, spill := fun _ _ node bytes => ([(node, bytes.toNat)], bytes, ()) }]
    else []
  queueOrder _ _ children := children

/-- The borrow on node b is granted after node a has spilled. -/
def borrowAndSpill : List Call :=
  [.newChild [] "r" 200, .newChild ["r"] "a" 100, .newChild ["r"] "b" 60,
    .borrow ["a", "r"] 80 { acquisitions := [(none, [])] },
    .borrow ["b", "r"] 70 { acquisitions := [(none, []), (none, [])] }]

theorem run_treeSafe_borrowAndSpill :
    ∃ world, runCalls spillingTask borrowAndSpill ((), { system := System.create (some 100) 0 1 }) = .ok world ∧
      TreeSafe 1 world.2 ∧ world.2.usedBytes ["a", "r"] = 40 ∧ world.2.usedBytes ["b", "r"] = 60 := by
  have hused : (match runCalls spillingTask borrowAndSpill ((), { system := System.create (some 100) 0 1 }) with
      | .ok world => decide (world.2.usedBytes ["a", "r"] = 40 ∧ world.2.usedBytes ["b", "r"] = 60)
      | .error _ => false) = true := by
    decide +kernel
  cases hrun : runCalls spillingTask borrowAndSpill ((), { system := System.create (some 100) 0 1 }) with
  | error failure => simp [hrun] at hused
  | ok world =>
    have hsafe := run_treeSafe spillingTask () (System.create (some 100) 0 1) rfl (by simp [OthersWait, System.create])
      borrowAndSpill world hrun
    rw [hrun] at hused
    exact ⟨world, rfl, hsafe.1, of_decide_eq_true hused⟩

end Bolt.MemoryTarget
