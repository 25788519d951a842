import Bolt.BufferManager.BlocksReclaim

/-!
# Block accounting over whole histories

The counters are the sums over the live blocks after every history of calls, and a pinned
block stays in memory whatever is called, until it is destroyed.
-/

namespace Bolt.BufferManager

open Lib Manager

variable {config : Config} {codec : SpillCodec} {manager : Manager} {blockId : ℕ}

def Manager.Resident (manager : Manager) (blockId : ℕ) : Prop :=
  ∃ memory ∈ manager.blocks, memory.id = blockId ∧ memory.state = .inMemory

namespace Manager

theorem Pinned.resident (hc : Consistent codec manager) (hp : manager.Pinned blockId) :
    manager.Resident blockId := by
  obtain ⟨memory, hm, hid, hpi⟩ := hp
  exact ⟨memory, hm, hid, (hc.accounts.wellFormed memory hm).pinned hpi⟩

theorem Resident.unpin (hco : Consistent codec manager) (hr : manager.Resident blockId) (unpinId : ℕ) :
    (manager.unpin unpinId).2.Resident blockId := by
  have hke : ∀ memory ∈ manager.blocks, ∀ stats, (manager.update memory.unpin stats).Resident blockId := by
    intro memory hm stats
    obtain ⟨sequence, heq, -⟩ := @BlockMemory.unpin_eq memory
    obtain ⟨other, ho, hid, hst⟩ := hr
    by_cases hs : other.id = memory.id
    · have hc := Keyed.eq_of_key_eq hco.accounts.nodup ho hm hs
      rw [hc] at hid hst
      refine ⟨memory.unpin, Keyed.mem_replace_self hm (by rw [heq]), ?_, ?_⟩
      · rw [heq]
        exact hid
      · rw [heq]
        exact hst
    · refine ⟨other, Keyed.mem_replace_of_ne ho ?_, hid, hst⟩
      rw [heq]
      exact hs
  rw [Manager.unpin]
  split
  · exact hr
  · next memory hl =>
    split_ifs
    · exact hr
    · exact hke memory (lookup_mem hl) manager.stats
    · exact hke memory (lookup_mem hl) manager.stats

theorem Resident.unpinAll (hc : Consistent codec manager) (hr : manager.Resident blockId)
    (blocks : List ℕ) : (manager.unpinAll blocks).Resident blockId := by
  induction blocks generalizing manager with
  | nil => exact hr
  | cons first rest ih => exact ih (hc.unpin first) (hr.unpin hc first)

/-- Pinning other blocks does not evict a pinned one. -/
theorem Pinned.pinAll (hc : Consistent config.codec manager) (hp : manager.Pinned blockId)
    (reads : ℕ → Option RawRead) (pinned blocks : List ℕ) :
    (manager.pinAll config reads pinned blocks).2.Resident blockId := by
  induction blocks generalizing manager pinned with
  | nil => exact hp.resident hc
  | cons first rest ih =>
    have ha := hc.pin first reads
    rw [pinAll]
    split
    · next hr =>
      rw [hr] at ha
      exact ih ha.consistent (ha.pins _ hp) _
    · next hr =>
      rw [hr] at ha
      exact ((ha.pins _ hp).resident ha.consistent).unpinAll ha.consistent pinned

/-- No call takes a pinned block out of memory, other than its destruction. -/
theorem Pinned.step (hc : Consistent config.codec manager) (hp : manager.Pinned blockId)
    {call : Call} (hca : call ≠ .destroy blockId) : (manager.step config call).Resident blockId := by
  have hke : ∀ manager' : Manager, manager'.Pinned blockId → Consistent config.codec manager' →
      manager'.Resident blockId := fun _ hpi ha => hpi.resident ha
  have hf : ∀ manager', Follows config.codec manager manager' → manager'.Resident blockId :=
    fun _ h => (h.pins _ hp).resident h.consistent
  have ha := hc.step call
  cases call with
  | allocate size tag fill =>
    apply hke _ _ ha
    rw [Manager.step, Manager.allocate]
    split_ifs
    · exact hp
    · obtain ⟨memory, hm, hr⟩ := hp
      exact ⟨memory, List.mem_append_left _ hm, hr⟩
  | pin pinId reads => exact hf _ (hc.pin pinId reads)
  | batchPin blocks reads =>
    rw [Manager.step, Manager.batchPin, Result.andThen]
    have hpr := hc.prefetch reads blocks
    split
    · exact (hpr.pins _ hp).pinAll hpr.consistent reads [] blocks
    · exact hf _ hpr
  | prefetch blocks reads => exact hf _ (hc.prefetch reads blocks)
  | unpin unpinId => exact (hp.resident hc).unpin hc unpinId
  | markDirty dirtyId => exact hf _ (hc.markDirty dirtyId)
  | writePayload writeId fill => exact hf _ (hc.writePayload writeId fill)
  | spillBlocks blocks writes =>
    exact hke _ (hp.keeps fun _ => spillBlocks_keeps hc blocks writes) ha
  | reclaim reclaiming => exact hke _ (hp.keeps fun _ => reclaim_keeps hc reclaiming) ha
  | discardCleanResidentBlocks blocks => exact hf _ (hc.discardCleanResidentBlocks blocks)
  | destroy destroyId =>
    apply hke _ _ ha
    rw [Manager.step, Manager.destroy]
    split
    · exact hp
    · obtain ⟨memory, hm, hid, hpi⟩ := hp
      refine ⟨memory, Keyed.mem_remove.mpr ⟨hm, ?_⟩, hid, hpi⟩
      intro heq
      exact hca (by rw [← heq, hid])

/-- After every history each counter is the sum over the live blocks, where a block that
is being read back counts as spilled and as prefetching, and nothing was ever clamped; a
block is in memory exactly with a payload, and has a segment while it is spilled or read
back; and the next call leaves a pinned block in memory, unless it destroys it. -/
theorem accounting_after (config : Config) (calls : List Call) :
    (∀ scope counter, (after config calls).stats.value scope counter =
      ((after config calls).blocks.map fun memory => memory.contribution scope counter).sum) ∧
    (after config calls).stats.clamped = false ∧
    (∀ memory ∈ (after config calls).blocks, (memory.payload.isSome ↔ memory.state = .inMemory) ∧
      (memory.state = .spilled ∨ memory.state = .prefetching → memory.segment.isSome)) ∧
    ∀ call, ∀ memory ∈ (after config calls).blocks, memory.pinCount ≠ 0 → call ≠ .destroy memory.id →
      ∃ memory' ∈ ((after config calls).step config call).blocks,
        memory'.id = memory.id ∧ memory'.state = .inMemory ∧ memory'.payload.isSome := by
  have hconsistent := consistent_after config calls
  generalize after config calls = manager at hconsistent
  refine ⟨hconsistent.accounts.value, hconsistent.accounts.clamped, ?_, ?_⟩
  · intro memory hmemory
    have hwell := hconsistent.accounts.wellFormed memory hmemory
    exact ⟨hwell.payload_iff, hwell.segment⟩
  · intro call memory hmemory hpin hcall
    obtain ⟨memory', hmemory', hid, hstate⟩ := Pinned.step hconsistent ⟨memory, hmemory, rfl, hpin⟩ hcall
    exact ⟨memory', hmemory', hid, hstate, ((hconsistent.step call).accounts.wellFormed memory' hmemory').payload_iff.mpr
      hstate⟩

/-- Reclaiming everything leaves the one pinned block in memory. -/
theorem accounting_after_reclaim :
    ∃ memory' ∈ ((after ⟨.identity, 1⟩ [.allocate 2 .sort (fun _ => 7)]).step ⟨.identity, 1⟩
        (.reclaim ⟨0, fun _ => .written .none⟩)).blocks,
      memory'.id = 1 ∧ memory'.state = .inMemory ∧ memory'.payload.isSome :=
  (accounting_after ⟨.identity, 1⟩ [.allocate 2 .sort (fun _ => 7)]).2.2.2 (.reclaim ⟨0, fun _ => .written .none⟩)
    { id := 1, size := 2, tag := .sort, pinCount := 1, payload := some [7, 7] } (List.mem_singleton.mpr rfl)
    (by decide) (by exact nofun)

/-- A block that is being read back is counted in the spilled bytes, though no block is
in the spilled state. -/
theorem spilledBytes_of_prefetching :
    let manager := after ⟨.identity, 1⟩
      [.allocate 2 .sort (fun _ => 7), .unpin 1, .reclaim ⟨0, fun _ => .written .none⟩,
        .prefetch [1] fun _ => some (.bytes (buildSpillRecord .identity .none [7, 7]) [] none)]
    manager.stats.value none .spilled = 2 ∧
      ((manager.blocks.filter fun memory => memory.state = .spilled).map BlockMemory.size).sum = 0 := by
  decide +kernel

end Manager

end Bolt.BufferManager
