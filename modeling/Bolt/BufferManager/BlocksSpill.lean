import Bolt.BufferManager.BlocksSteps

/-!
# The eviction queue and the spill driver

What comes off the eviction queue can be spilled, and whatever can be spilled stays
queued. A spill keeps the invariant whether or not its writes succeed, and leaves every
block as it is that could not be spilled at its start.
-/

namespace Bolt.BufferManager

open Lib List Keyed

variable {codec : SpillCodec}
variable {memory : BlockMemory}

theorem Result.andThen_state {σ α β : Type} {P : σ → Prop} {result : Result σ α} {next : α → σ → Result σ β}
    (hr : P result.2) (hn : ∀ a state, P state → P (next a state).2) : P (result.andThen next).2 := by
  rw [Result.andThen]
  split
  · exact hn _ _ hr
  · exact hr

/-! ## The eviction queue -/

def EvictionEntry.IsFresh (blocks : List BlockMemory) (entry : EvictionEntry) : Prop :=
  isEvictable (Keyed.lookup BlockMemory.id blocks entry.block) entry.sequence = true

theorem EvictionEntry.IsFresh.lookup {blocks : List BlockMemory} {entry : EvictionEntry} (hf : entry.IsFresh blocks) :
    ∃ memory, Keyed.lookup BlockMemory.id blocks entry.block = some memory ∧
      memory.evictionSequence = entry.sequence ∧ spillable memory := by
  rw [EvictionEntry.IsFresh] at hf
  cases hl : Keyed.lookup BlockMemory.id blocks entry.block with
  | none =>
    rw [hl] at hf
    cases hf
  | some memory =>
    rw [hl, isEvictable, decide_eq_true_iff] at hf
    exact ⟨memory, rfl, hf⟩

theorem isFresh_of_spillable {blocks : List BlockMemory} (hn : (blocks.map BlockMemory.id).Nodup)
    (hm : memory ∈ blocks) (hsp : spillable memory) :
    EvictionEntry.IsFresh blocks ⟨memory.id, memory.evictionSequence⟩ := by
  rw [EvictionEntry.IsFresh]
  rw [lookup_of_mem hn hm, isEvictable, decide_eq_true_iff]
  exact ⟨rfl, hsp⟩

/-- The queue yields its first fresh entry, if there is one. -/
theorem popEvictable_spec (blocks : List BlockMemory) (queue : List EvictionEntry) (stale : ℕ) :
    (∃ dropped entry rest, queue = dropped ++ entry :: rest ∧ (∀ other ∈ dropped, ¬ other.IsFresh blocks) ∧
      entry.IsFresh blocks ∧
      popEvictable blocks queue stale = (some entry.block, rest, stale + dropped.length)) ∨
    (∀ entry ∈ queue, ¬ entry.IsFresh blocks) ∧ popEvictable blocks queue stale = (none, [], stale + queue.length) := by
  induction queue generalizing stale with
  | nil =>
    right
    refine ⟨?_, rfl⟩
    intro entry hen
    cases hen
  | cons entry queue ih =>
    rw [popEvictable]
    by_cases hf : entry.IsFresh blocks
    · left
      refine ⟨[], entry, queue, rfl, ?_, hf, ?_⟩
      · intro other ho
        cases ho
      · rw [if_pos (show isEvictable _ _ = true from hf)]
        rfl
    · rw [if_neg (show ¬ isEvictable _ _ = true from hf)]
      rcases ih (stale + 1) with ⟨dropped, found, rest, hq, hd, hfo, hp⟩ | ⟨ha, hp⟩
      · left
        refine ⟨entry :: dropped, found, rest, by rw [hq]; rfl, ?_, hfo, ?_⟩
        · intro other ho
          rcases mem_cons.mp ho with rfl | ho
          · exact hf
          · exact hd other ho
        · rw [hp, length_cons, Nat.add_right_comm, Nat.add_assoc]
      · right
        refine ⟨?_, ?_⟩
        · intro other ho
          rcases mem_cons.mp ho with rfl | ho
          · exact hf
          · exact ha other ho
        · rw [hp, length_cons, Nat.add_right_comm, Nat.add_assoc]

variable {manager : Manager}

theorem Queued.pop (hq : Queued manager none)
    (hn : (manager.blocks.map BlockMemory.id).Nodup) {dropped rest : List EvictionEntry} {entry : EvictionEntry}
    (heq : manager.evictionQueue = dropped ++ entry :: rest)
    (hd : ∀ other ∈ dropped, ¬ other.IsFresh manager.blocks) (stale : ℕ) :
    Queued { manager with evictionQueue := rest, staleEntries := stale } (some entry.block) := by
  have hr : ∀ other ∈ rest, other ∈ manager.evictionQueue := by
    intro other ho
    rw [heq]
    exact mem_append_right _ (mem_cons_of_mem _ ho)
  refine ⟨fun other ho => hq.entries_lt other (hr other ho),
    fun other ho => hq.entries_le other (hr other ho), ?_⟩
  intro memory hm hsp hne
  have hco := hq.queued memory hm hsp (by exact nofun)
  have hz : dropped.count ⟨memory.id, memory.evictionSequence⟩ = 0 := by
    apply count_eq_zero.mpr
    intro hin
    exact hd _ hin (isFresh_of_spillable hn hm hsp)
  have ho : entry ≠ ⟨memory.id, memory.evictionSequence⟩ := by
    intro h
    rw [h] at hne
    exact hne rfl
  rw [heq, count_append, hz, count_cons_of_ne ho, Nat.zero_add] at hco
  exact hco

theorem Queued.not_spillable (hq : Queued manager none) (hn : (manager.blocks.map BlockMemory.id).Nodup)
    (ha : ∀ entry ∈ manager.evictionQueue, ¬ entry.IsFresh manager.blocks) :
    ∀ memory ∈ manager.blocks, spillable memory = false := by
  intro memory hm
  by_contra hsp
  rw [Bool.not_eq_false] at hsp
  have hco := hq.queued memory hm hsp (by exact nofun)
  have hin : (⟨memory.id, memory.evictionSequence⟩ : EvictionEntry) ∈ manager.evictionQueue := by
    apply count_pos_iff.mp
    omega
  exact ha _ hin (isFresh_of_spillable hn hm hsp)

theorem nextHandle_spec (manager : Manager) (blocks : List ℕ) : (nextHandle manager blocks).2.length ≤ blocks.length ∧
    ∀ blockId, (nextHandle manager blocks).1 = some blockId →
      (∃ memory, manager.lookup blockId = some memory ∧ spillable memory) ∧
      (nextHandle manager blocks).2.length < blocks.length := by
  induction blocks with
  | nil =>
    refine ⟨Nat.le_refl _, ?_⟩
    intro blockId h
    cases h
  | cons first rest ih =>
    have hsk : (nextHandle manager rest).2.length ≤ (first :: rest).length ∧
        ∀ blockId, (nextHandle manager rest).1 = some blockId →
          (∃ memory, manager.lookup blockId = some memory ∧ spillable memory) ∧
          (nextHandle manager rest).2.length < (first :: rest).length := by
      rw [length_cons]
      refine ⟨by omega, ?_⟩
      intro blockId h
      obtain ⟨hf, hlt⟩ := ih.2 blockId h
      exact ⟨hf, by omega⟩
    rw [nextHandle]
    cases hl : manager.lookup first with
    | none => exact hsk
    | some memory =>
      dsimp only
      split_ifs with hsp
      · refine ⟨Nat.le_succ _, ?_⟩
        intro blockId h
        cases h
        exact ⟨⟨memory, hl, hsp⟩, Nat.lt_succ_self _⟩
      · exact hsk

/-! ## Runs of the driver -/

namespace SpillRun

variable {memory : BlockMemory}

/-- The invariant of a spill that began in `start`; `popped` is a candidate that has come
off the queue and is not handled yet. -/
structure Sound (codec : SpillCodec) (start : Manager) (popped : Option ℕ) (run : SpillRun) : Prop where
  accounts : Accounts codec run.manager
  queue : Queued run.manager popped
  pending_nodup : (run.pending.map PendingWrite.block).Nodup
  pending_spilling : ∀ write ∈ run.pending, ∃ memory ∈ run.manager.blocks,
    memory.id = write.block ∧ memory.state = .spilling ∧ write.payload.length = memory.size
  kept : ∀ memory ∈ start.blocks, spillable memory = false →
    memory ∈ run.manager.blocks ∧ ∀ write ∈ run.pending, write.block ≠ memory.id

variable {start : Manager} {run : SpillRun}

/-- A candidate that has been taken off leaves memory, by an update of its block. -/
theorem Sound.leave {memory' : BlockMemory} {stats' : Stats} (hs : run.Sound codec start (some memory.id))
    (hm : memory ∈ run.manager.blocks) (hsp : spillable memory) (hid : memory'.id = memory.id)
    (hw : memory'.WellFormed codec) (hmo : run.manager.stats.Moves stats' memory memory')
    (hse : memory.evictionSequence ≤ memory'.evictionSequence) (hspi : spillable memory' = false) :
    Sound codec start none { run with manager := run.manager.update memory' stats' } where
  accounts := hs.accounts.update hm hid hw hmo
  queue := hs.queue.update_popped hm hid hse hspi
  pending_nodup := hs.pending_nodup
  pending_spilling := by
    intro write hwr
    obtain ⟨other, ho, hke, hst, hl⟩ := hs.pending_spilling write hwr
    refine ⟨other, mem_replace_of_ne ho ?_, hke, hst, hl⟩
    intro heq
    have hsa := eq_of_key_eq hs.accounts.nodup ho hm (heq.trans hid)
    rw [hsa, (spillable_iff.mp hsp).2.1] at hst
    cases hst
  kept := by
    intro other ho hn
    obtain ⟨hin, hp⟩ := hs.kept other ho hn
    refine ⟨mem_replace_of_ne hin ?_, hp⟩
    intro heq
    have hsa := eq_of_key_eq hs.accounts.nodup hin hm (heq.trans hid)
    rw [hsa, hsp] at hn
    cases hn

theorem Sound.congr {popped : Option ℕ} {run' : SpillRun} (hs : run.Sound codec start popped)
    (hm : run'.manager = run.manager) (hp : run'.pending = run.pending) :
    run'.Sound codec start popped where
  accounts := hm ▸ hs.accounts
  queue := hm ▸ hs.queue
  pending_nodup := hp ▸ hs.pending_nodup
  pending_spilling := by
    rw [hm, hp]
    exact hs.pending_spilling
  kept := by
    rw [hm, hp]
    exact hs.kept

variable (hs : run.Sound codec start none)
include hs

theorem nextCandidate_some {blockId : ℕ} (h : run.nextCandidate.1 = some blockId) :
    ∃ memory queue stale candidates, run.manager.lookup blockId = some memory ∧ spillable memory ∧
      run.nextCandidate.2 = { run with
        manager := { run.manager with evictionQueue := queue, staleEntries := stale }, candidates := candidates } ∧
      Queued { run.manager with evictionQueue := queue, staleEntries := stale } (some blockId) ∧
      run.nextCandidate.2.remaining < run.remaining := by
  cases hca : run.candidates with
  | evictionQueue =>
    rcases popEvictable_spec run.manager.blocks run.manager.evictionQueue run.manager.staleEntries with
      ⟨dropped, entry, rest, hq, hd, hf, hp⟩ | ⟨_, hp⟩
    · obtain ⟨memory, hl, -, hsp⟩ := hf.lookup
      simp only [nextCandidate, hca, hp] at h ⊢
      cases h
      refine ⟨memory, rest, _, .evictionQueue, hl, hsp, rfl,
        hs.queue.pop hs.accounts.nodup hq hd _, ?_⟩
      rw [remaining, remaining, hca]
      dsimp only
      rw [hq, length_append, length_cons]
      omega
    · simp only [nextCandidate, hca, hp] at h
      cases h
  | handles blocks =>
    have hspe := (nextHandle_spec run.manager blocks).2 blockId
    simp only [nextCandidate, hca] at h ⊢
    obtain ⟨⟨memory, hl, hsp⟩, hlt⟩ := hspe h
    refine ⟨memory, run.manager.evictionQueue, run.manager.staleEntries, _, hl, hsp, rfl,
      hs.queue.weaken _, ?_⟩
    rw [remaining, remaining, hca]
    exact hlt

theorem nextCandidate_none (h : run.nextCandidate.1 = none) : ∃ queue stale candidates, run.nextCandidate.2 = { run with
        manager := { run.manager with evictionQueue := queue, staleEntries := stale }, candidates := candidates } ∧
      Queued { run.manager with evictionQueue := queue, staleEntries := stale } none ∧
      run.nextCandidate.2.remaining ≤ run.remaining ∧
      (run.candidates = .evictionQueue → ∀ memory ∈ run.manager.blocks, spillable memory = false) := by
  cases hca : run.candidates with
  | evictionQueue =>
    rcases popEvictable_spec run.manager.blocks run.manager.evictionQueue run.manager.staleEntries with
      ⟨dropped, entry, rest, hq, hd, hf, hp⟩ | ⟨ha, hp⟩
    · simp only [nextCandidate, hca, hp] at h
      cases h
    · have hn := hs.queue.not_spillable hs.accounts.nodup ha
      simp only [nextCandidate, hca, hp]
      refine ⟨[], _, .evictionQueue, rfl, ⟨?_, ?_, ?_⟩, ?_, fun _ => hn⟩
      · intro entry hen
        cases hen
      · intro entry hen
        cases hen
      · intro memory hm hsp
        rw [hn memory hm] at hsp
        cases hsp
      · exact Nat.zero_le _
  | handles blocks =>
    have hspe := (nextHandle_spec run.manager blocks).1
    simp only [nextCandidate, hca] at h ⊢
    refine ⟨run.manager.evictionQueue, run.manager.staleEntries, _, rfl, ?_, ?_, nofun⟩
    · exact ⟨hs.queue.entries_lt, hs.queue.entries_le, hs.queue.queued⟩
    · rw [remaining, remaining, hca]
      exact hspe

theorem Sound.requeue {popped : Option ℕ} {queue : List EvictionEntry} {stale : ℕ} (candidates : SpillCandidates)
    (hq : Queued { run.manager with evictionQueue := queue, staleEntries := stale } popped) :
    Sound codec start popped { run with
      manager := { run.manager with evictionQueue := queue, staleEntries := stale }, candidates := candidates } :=
  { hs with accounts := { hs.accounts with }, queue := hq }

/-- A block whose payload has moved into the window. -/
theorem Sound.enqueue (hm : memory ∈ run.manager.blocks) (hsta : memory.state = .spilling)
    (hn : ∀ write ∈ run.pending, write.block ≠ memory.id)
    (hst : ∀ other ∈ start.blocks, spillable other = false → other.id ≠ memory.id) {payload : List UInt8}
    (hl : payload.length = memory.size) (write : WriteOutcome) :
    Sound codec start none { run with pending := run.pending ++ [⟨memory.id, payload, write⟩] } where
  accounts := hs.accounts
  queue := hs.queue
  pending_nodup := by
    rw [map_append, nodup_append]
    refine ⟨hs.pending_nodup, nodup_singleton _, ?_⟩
    intro id hid other ho heq
    obtain ⟨pending, hp, rfl⟩ := mem_map.mp hid
    rw [map_cons, map_nil, mem_singleton] at ho
    exact hn pending hp (heq.trans ho)
  pending_spilling := by
    intro pending hp
    rcases mem_append.mp hp with hold | hn
    · exact hs.pending_spilling pending hold
    · rw [mem_singleton.mp hn]
      exact ⟨memory, hm, rfl, hsta, hl⟩
  kept := by
    intro other ho hno
    obtain ⟨hin, hp⟩ := hs.kept other ho hno
    refine ⟨hin, ?_⟩
    intro pending hme
    rcases mem_append.mp hme with hold | hn
    · exact hp pending hold
    · rw [mem_singleton.mp hn]
      exact (hst other ho hno).symm

omit hs in
theorem Sound.takeCandidate {blockId : ℕ} (hs : run.Sound codec start (some blockId))
    (hlo : run.manager.lookup blockId = some memory) (hsp : spillable memory) (writes : ℕ → WriteOutcome) :
    (run.takeCandidate writes blockId).2.Sound codec start none := by
  have hm := Manager.lookup_mem hlo
  have hid := Manager.lookup_id hlo
  obtain ⟨hp, hst, hso⟩ := spillable_iff.mp hsp
  have hw := hs.accounts.wellFormed memory hm
  have hco := hs.accounts.covers hm
  subst hid
  unfold SpillRun.takeCandidate
  rw [hlo]
  dsimp only
  split_ifs with hd
  · have hse := (canDiscardResidentWithBacking_iff.mp hd).2.2.2.1
    have hl := hs.leave hm hsp (show memory.discardResidentWithBacking.id = memory.id from rfl)
      (hw.discard hp hse) (Stats.onCleanResidentDiscarded_moves hco hst hp) (Nat.le_succ _)
      (not_spillable (by exact nofun))
    exact hl.congr rfl rfl
  · obtain ⟨payload, hpa⟩ := Option.isSome_iff_exists.mp hso
    have hl := hs.leave hm hsp (show memory.beginSpill.id = memory.id from rfl) (hw.beginSpill hp)
      (Stats.onSpillStarted_moves hco hst hp) (Nat.le_refl _) (not_spillable (by exact nofun))
    have hin : memory.beginSpill ∈ (run.manager.update memory.beginSpill
        (run.manager.stats.onSpillStarted memory.beginSpill)).blocks := mem_replace_self hm rfl
    have hnew : ∀ write ∈ run.pending, write.block ≠ memory.beginSpill.id := by
      intro write hwr heq
      obtain ⟨other, ho, hke, hspilling, -⟩ := hs.pending_spilling write hwr
      have hsa := eq_of_key_eq hs.accounts.nodup ho hm (hke.trans heq)
      rw [hsa, hst] at hspilling
      cases hspilling
    have hsta : ∀ other ∈ start.blocks, spillable other = false → other.id ≠ memory.beginSpill.id := by
      intro other ho hn heq
      have hsa := eq_of_key_eq hs.accounts.nodup (hs.kept other ho hn).1 hm heq
      rw [hsa, hsp] at hn
      cases hn
    unfold SpillRun.submit
    rw [hpa]
    have hlen := hw.payload_length payload hpa
    cases writes memory.id with
    | submissionThrows => exact hl
    | ioError => exact (hl.enqueue hin rfl hnew hsta hlen .ioError).congr rfl rfl
    | written kind => exact (hl.enqueue hin rfl hnew hsta hlen (.written kind)).congr rfl rfl

/-- A write that ends, well or not, keeps the run sound. -/
theorem Sound.harvestNext {write : PendingWrite} {rest : List PendingWrite} (hp : run.pending = write :: rest) :
    (run.harvestNext codec write rest).2.Sound codec start none := by
  have hd : Sound codec start none { run with pending := rest } := by
    refine ⟨hs.accounts, hs.queue, ?_, ?_, ?_⟩
    · have hno := hs.pending_nodup
      rw [hp, map_cons, nodup_cons] at hno
      exact hno.2
    · intro other ho
      exact hs.pending_spilling other (by rw [hp]; exact mem_cons_of_mem _ ho)
    · intro memory hm hn
      obtain ⟨hin, ho⟩ := hs.kept memory hm hn
      refine ⟨hin, fun other hme => ho other ?_⟩
      rw [hp]
      exact mem_cons_of_mem _ hme
  obtain ⟨memory, hm, hid, hst, hl⟩ := hs.pending_spilling write (by rw [hp]; exact mem_cons_self)
  have hw := hs.accounts.wellFormed memory hm
  unfold SpillRun.harvestNext
  rw [← hid, hs.accounts.lookup hm]
  cases write.write with
  | submissionThrows | ioError => exact hd
  | written kind =>
    have hke : (memory.completeSpill (buildSpillRecord codec kind write.payload)).id = memory.id := rfl
    refine ⟨?_, ?_, hd.pending_nodup, ?_, ?_⟩
    · exact hs.accounts.update hm hke (hw.completeSpill hst hl kind)
        (Stats.onSpillCompleted_moves (hs.accounts.covers hm) hst _)
    · apply hs.queue.update hm hke (Nat.le_succ _)
      intro hsp
      cases (spillable_iff.mp hsp).2.1
    · intro other ho
      obtain ⟨memory', hme', hid', hspilling, hl'⟩ := hd.pending_spilling other ho
      refine ⟨memory', mem_replace_of_ne hme' ?_, hid', hspilling, hl'⟩
      intro heq
      have hno := hs.pending_nodup
      rw [hp, map_cons, nodup_cons] at hno
      apply hno.1
      rw [← hid, show memory.id = other.block from heq.symm.trans hid']
      exact mem_map_of_mem ho
    · intro other ho hn
      obtain ⟨hin, hne⟩ := hs.kept other ho hn
      refine ⟨mem_replace_of_ne hin ?_, (hd.kept other ho hn).2⟩
      intro heq
      apply hne write (by rw [hp]; exact mem_cons_self)
      exact hid.symm.trans heq.symm

theorem Sound.submitLoop (maxInflight targetBytes : ℕ) (writes : ℕ → WriteOutcome) (fuel : ℕ) :
    (run.submitLoop maxInflight targetBytes writes fuel).2.Sound codec start none := by
  induction fuel generalizing run with
  | zero => exact hs
  | succ fuel ih =>
    rw [SpillRun.submitLoop]
    split_ifs
    · cases hn : run.nextCandidate.1 with
      | none =>
        obtain ⟨queue, stale, candidates, heq, hq, -⟩ := nextCandidate_none hs hn
        rw [heq]
        exact (hs.requeue candidates hq).congr rfl rfl
      | some blockId =>
        obtain ⟨memory, queue, stale, candidates, hl, hsp, heq, hq, -⟩ := nextCandidate_some hs hn
        rw [heq]
        apply Result.andThen_state
        · exact (hs.requeue candidates hq).takeCandidate hl hsp writes
        · intro _ run hr
          exact ih hr
    · exact hs

/-- The loop over submissions and finished writes keeps the run sound. -/
theorem Sound.drain (maxInflight targetBytes : ℕ) (writes : ℕ → WriteOutcome) (fuel : ℕ) :
    (run.drain codec maxInflight targetBytes writes fuel).2.Sound codec start none := by
  induction fuel generalizing run with
  | zero => exact hs
  | succ fuel ih =>
    rw [SpillRun.drain]
    split
    · exact hs
    · next write rest hp =>
      apply Result.andThen_state
      · exact hs.harvestNext hp
      · intro _ run hr
        split_ifs
        · apply Result.andThen_state
          · exact hr.submitLoop maxInflight targetBytes writes _
          · intro _ run hr
            exact ih hr
        · exact ih hr

end SpillRun

theorem Consistent.sound (hc : Consistent codec manager) (candidates : SpillCandidates) :
    SpillRun.Sound codec manager none
      { manager := manager, candidates := candidates, pending := [], submitted := 0, reclaimed := 0
        noMoreCandidates := false, taken := [] } where
  accounts := hc.accounts
  queue := hc.queue
  pending_nodup := nodup_nil
  pending_spilling := nofun
  kept := fun _ hm _ => ⟨hm, nofun⟩

/-- A whole spill is sound, from any consistent manager. -/
theorem spill_sound (hc : Consistent codec manager) (maxInflight targetBytes : ℕ)
    (writes : ℕ → WriteOutcome) (candidates : SpillCandidates) :
    (spill codec maxInflight targetBytes writes candidates manager).2.Sound codec manager none := by
  rw [spill]
  split_ifs
  · exact hc.sound candidates
  · apply Result.andThen_state
    · exact (hc.sound candidates).submitLoop maxInflight targetBytes writes _
    · intro _ run hr
      exact hr.drain maxInflight targetBytes writes _

variable {config : Config} {manager : Manager}

section

variable (hc : Consistent config.codec manager)
include hc

theorem Consistent.reclaim (reclaiming : Reclaiming) : Consistent config.codec (manager.reclaim config reclaiming).2 :=
  have hs := spill_sound hc config.maxReclaimWriteInflight reclaiming.targetBytes reclaiming.writes
    .evictionQueue
  ⟨hs.accounts, hs.queue⟩

theorem Manager.reclaim_keeps (reclaiming : Reclaiming) (hm : memory ∈ manager.blocks)
    (hn : spillable memory = false) :
    memory ∈ (manager.reclaim config reclaiming).2.blocks :=
  ((spill_sound hc config.maxReclaimWriteInflight reclaiming.targetBytes reclaiming.writes
    .evictionQueue).kept memory hm hn).1

theorem Consistent.spillBlocks (blocks : List ℕ) (writes : ℕ → WriteOutcome) :
    Consistent config.codec (manager.spillBlocks config blocks writes).2 :=
  have hs := spill_sound hc config.maxReclaimWriteInflight 0 writes (.handles blocks)
  ⟨hs.accounts, hs.queue⟩

theorem Manager.spillBlocks_keeps (blocks : List ℕ) (writes : ℕ → WriteOutcome) (hm : memory ∈ manager.blocks)
    (hn : spillable memory = false) :
    memory ∈ (manager.spillBlocks config blocks writes).2.blocks :=
  ((spill_sound hc config.maxReclaimWriteInflight 0 writes (.handles blocks)).kept memory hm hn).1

end

theorem Consistent.discardClean (hc : Consistent codec manager) (hm : memory ∈ manager.blocks)
    (hd : memory.canDiscardResidentWithBacking) :
    Follows codec manager (manager.update memory.discardResidentWithBacking
      (manager.stats.onCleanResidentDiscarded memory)) := by
  obtain ⟨hst, hp, -, hse, -⟩ := canDiscardResidentWithBacking_iff.mp hd
  apply hc.follows_update hm
  · rfl
  · exact (hc.accounts.wellFormed memory hm).discard hp hse
  · exact Stats.onCleanResidentDiscarded_moves (hc.accounts.covers hm) hst hp
  · exact Nat.le_succ _
  · intro hsp
    cases (spillable_iff.mp hsp).2.1
  · exact fun hne => absurd hp hne

theorem Consistent.discardCleanResidentBlocks (hc : Consistent codec manager) (blocks : List ℕ) :
    Follows codec manager (manager.discardCleanResidentBlocks blocks) := by
  induction blocks generalizing manager with
  | nil => exact hc.follows
  | cons blockId rest ih =>
    rw [Manager.discardCleanResidentBlocks]
    split
    · exact ih hc
    · next memory hl =>
      split_ifs with hdi
      · have hd := hc.discardClean (Manager.lookup_mem hl) hdi
        exact hd.trans (ih hd.consistent)
      · exact ih hc

end Bolt.BufferManager
