import Bolt.BufferManager.BlocksAccounting

/-!
# The invariant of the buffer manager

`Accounts` holds of the blocks and the counters, `Queued` of the blocks and the eviction
queue. Each operation is a sequence of updates of single blocks, and one theorem for each
part says which updates keep it.
-/

namespace Bolt.BufferManager

open Lib Keyed

/-- A payload exactly in memory, a segment while it is spilled or read back, and pins
only in memory. The segment holds a record of a payload of the block's size. -/
structure BlockMemory.WellFormed (codec : SpillCodec) (memory : BlockMemory) : Prop where
  payload_iff : memory.payload.isSome ↔ memory.state = .inMemory
  payload_length : ∀ payload, memory.payload = some payload → payload.length = memory.size
  segment : memory.state = .spilled ∨ memory.state = .prefetching → memory.segment.isSome
  stored : ∀ record, memory.segment = some record →
    ∃ kind payload, payload.length = memory.size ∧ record = buildSpillRecord codec kind payload
  pinned : memory.pinCount ≠ 0 → memory.state = .inMemory

/-- Each counter is the sum of what the blocks are counted for, and none was clamped. -/
structure Accounts (codec : SpillCodec) (manager : Manager) : Prop where
  nodup : (manager.blocks.map BlockMemory.id).Nodup
  ids_lt : ∀ memory ∈ manager.blocks, memory.id < manager.nextBlockId
  wellFormed : ∀ memory ∈ manager.blocks, memory.WellFormed codec
  value : ∀ scope counter,
    manager.stats.value scope counter = (manager.blocks.map fun memory => memory.contribution scope counter).sum
  clamped : manager.stats.clamped = false

/-- Every block that can be spilled is queued once under its generation, apart from a
block that has just been taken off the queue. -/
structure Queued (manager : Manager) (popped : Option ℕ) : Prop where
  entries_lt : ∀ entry ∈ manager.evictionQueue, entry.block < manager.nextBlockId
  entries_le : ∀ entry ∈ manager.evictionQueue, ∀ memory ∈ manager.blocks, memory.id = entry.block →
    entry.sequence ≤ memory.evictionSequence
  queued : ∀ memory ∈ manager.blocks, spillable memory → popped ≠ some memory.id →
    manager.evictionQueue.count ⟨memory.id, memory.evictionSequence⟩ = 1

structure Consistent (codec : SpillCodec) (manager : Manager) : Prop where
  accounts : Accounts codec manager
  queue : Queued manager none

variable {codec : SpillCodec} {manager : Manager} {memory memory' : BlockMemory} {stats' : Stats}

theorem spillable_iff : spillable memory = true ↔
    memory.pinCount = 0 ∧ memory.state = .inMemory ∧ memory.payload.isSome := by
  rw [spillable, decide_eq_true_iff]

theorem canDiscardResidentWithBacking_iff : memory.canDiscardResidentWithBacking = true ↔
    memory.state = .inMemory ∧ memory.pinCount = 0 ∧ memory.payload.isSome ∧ memory.segment.isSome ∧ memory.dirty = false := by
  rw [BlockMemory.canDiscardResidentWithBacking, decide_eq_true_iff, Bool.not_eq_true']

/-! ## Updates of one block -/

theorem Queued.weaken (hq : Queued manager none) (popped : Option ℕ) : Queued manager popped :=
  { hq with queued := fun memory hm hsp _ => hq.queued memory hm hsp (by exact nofun) }

theorem Manager.lookup_mem (h : manager.lookup k = some memory) : memory ∈ manager.blocks :=
  Keyed.lookup_mem h

theorem Manager.lookup_id (h : manager.lookup k = some memory) : memory.id = k :=
  lookup_key h

/-- The events are counted apart from everything else. -/
theorem Consistent.events (hc : Consistent codec manager) (events : PinEvents) :
    Consistent codec { manager with events := events } := by
  constructor
  · exact ⟨hc.accounts.nodup, hc.accounts.ids_lt, hc.accounts.wellFormed,
      hc.accounts.value, hc.accounts.clamped⟩
  · exact ⟨hc.queue.entries_lt, hc.queue.entries_le, hc.queue.queued⟩

def Manager.Pinned (manager : Manager) (blockId : ℕ) : Prop :=
  ∃ memory ∈ manager.blocks, memory.id = blockId ∧ memory.pinCount ≠ 0

/-- What an operation leaves behind: the invariant, and every pin. -/
structure Follows (codec : SpillCodec) (manager manager' : Manager) : Prop where
  consistent : Consistent codec manager'
  pins : ∀ blockId, manager.Pinned blockId → manager'.Pinned blockId

theorem Consistent.follows (hc : Consistent codec manager) : Follows codec manager manager :=
  ⟨hc, fun _ hp => hp⟩

theorem Follows.trans {manager' manager'' : Manager} (h : Follows codec manager manager')
    (h' : Follows codec manager' manager'') : Follows codec manager manager'' :=
  ⟨h'.consistent, fun blockId hp => h'.pins blockId (h.pins blockId hp)⟩

theorem Follows.events {manager' : Manager} (h : Follows codec manager manager') (events : PinEvents) :
    Follows codec manager { manager' with events := events } :=
  ⟨h.consistent.events events, h.pins⟩

variable (hm : memory ∈ manager.blocks) (hid : memory'.id = memory.id) (hw : memory'.WellFormed codec)
  (hmo : manager.stats.Moves stats' memory memory')
  (hse : memory.evictionSequence ≤ memory'.evictionSequence)
  (hs : spillable memory' → spillable memory ∧ memory'.evictionSequence = memory.evictionSequence)

include hm

theorem Accounts.covers (ha : Accounts codec manager) : manager.stats.Covers memory := by
  intro scope counter hsc
  rw [ha.value]
  have hle := le_sum (fun memory : BlockMemory => memory.contribution scope counter) hm
  rwa [BlockMemory.contribution, if_pos hsc] at hle

theorem Accounts.lookup (ha : Accounts codec manager) : manager.lookup memory.id = some memory :=
  lookup_of_mem ha.nodup hm

include hid

include hw hmo in
theorem Accounts.update (ha : Accounts codec manager) : Accounts codec (manager.update memory' stats') where
  nodup := by
    rw [Manager.update]
    rw [map_key_replace]
    exact ha.nodup
  ids_lt := by
    intro other ho
    rcases mem_replace ho with rfl | ⟨ho, _⟩
    · rw [hid]
      exact ha.ids_lt memory hm
    · exact ha.ids_lt other ho
  wellFormed := by
    intro other ho
    rcases mem_replace ho with rfl | ⟨ho, _⟩
    · exact hw
    · exact ha.wellFormed other ho
  value := by
    intro scope counter
    have hsu := sum_replace (fun memory : BlockMemory => memory.contribution scope counter) ha.nodup
      hm hid.symm
    have hmov := hmo.value scope counter
    have hv := ha.value scope counter
    dsimp only [Manager.update] at hsu ⊢
    omega
  clamped := hmo.clamped.trans ha.clamped

include hse in
/-- A generation never goes back, so the entries of a block stay old. -/
theorem Queued.entries_le_update {popped : Option ℕ} (hq : Queued manager popped) {entry : EvictionEntry}
    (hen : entry ∈ manager.evictionQueue) {other : BlockMemory}
    (ho : other ∈ (manager.update memory' stats').blocks) (hke : other.id = entry.block) :
    entry.sequence ≤ other.evictionSequence := by
  rcases mem_replace ho with rfl | ⟨ho, _⟩
  · exact (hq.entries_le entry hen memory hm (hid.symm.trans hke)).trans hse
  · exact hq.entries_le entry hen other ho hke

include hse hs in
/-- A generation never goes back, and a block that can be spilled afterwards could be
spilled before, under the same generation. -/
theorem Queued.update {popped : Option ℕ} (hq : Queued manager popped) :
    Queued (manager.update memory' stats') popped where
  entries_lt := hq.entries_lt
  entries_le := fun _ hen _ ho hke => hq.entries_le_update hm hid hse hen ho hke
  queued := by
    intro other ho hsp hne
    rcases mem_replace ho with rfl | ⟨ho, _⟩
    · obtain ⟨hb, hsa⟩ := hs hsp
      rw [hid, hsa]
      exact hq.queued memory hm hb (hid ▸ hne)
    · exact hq.queued other ho hsp hne

include hse in
/-- A block that was taken off the queue and cannot be spilled any more. -/
theorem Queued.update_popped (hq : Queued manager (some memory.id)) (hs : spillable memory' = false) :
    Queued (manager.update memory' stats') none where
  entries_lt := hq.entries_lt
  entries_le := fun _ hen _ ho hke => hq.entries_le_update hm hid hse hen ho hke
  queued := by
    intro other ho hsp _
    rcases mem_replace ho with rfl | ⟨ho, hne⟩
    · rw [hs] at hsp
      cases hsp
    · apply hq.queued other ho hsp
      intro heq
      rw [hid] at hne
      exact hne (Option.some.inj heq).symm

include hw hmo hse hs in
theorem Consistent.update (hc : Consistent codec manager) : Consistent codec (manager.update memory' stats') :=
  ⟨hc.accounts.update hm hid hw hmo, hc.queue.update hm hid hse hs⟩

include hw hmo hse hs in
theorem Consistent.follows_update (hc : Consistent codec manager)
    (hpi : memory.pinCount ≠ 0 → memory'.pinCount ≠ 0) : Follows codec manager (manager.update memory' stats') := by
  refine ⟨hc.update hm hid hw hmo hse hs, fun blockId hp => ?_⟩
  obtain ⟨other, ho, hke, ho'⟩ := hp
  by_cases hsa : other.id = memory.id
  · have heq := eq_of_key_eq hc.accounts.nodup ho hm hsa
    rw [heq] at hke ho'
    exact ⟨memory', mem_replace_self hm hid.symm, hid.trans hke, hpi ho'⟩
  · exact ⟨other, mem_replace_of_ne ho (hid ▸ hsa), hke, ho'⟩

end Bolt.BufferManager
