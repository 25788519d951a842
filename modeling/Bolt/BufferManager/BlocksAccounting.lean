import Bolt.BufferManager.Blocks

/-!
# What the counters say about a block

Each counter should hold the sum of what the blocks are counted for. A transition of one
block then has to move the counters by the difference, and no subtraction has to clamp
when the block is counted for at least what is subtracted.
-/

namespace Bolt.BufferManager

open Lib BlockMemory

/-- What a block is counted for. A block that is being read back still counts as spilled. -/
def BlockMemory.amount (memory : BlockMemory) : Counter → ℕ
  | .liveBlocks => 1
  | .pinnedResident => if memory.state = .inMemory ∧ memory.pinCount ≠ 0 then memory.size else 0
  | .unpinnedResident => if memory.state = .inMemory ∧ memory.pinCount = 0 then memory.size else 0
  | .spilled => if memory.state = .spilled ∨ memory.state = .prefetching then memory.size else 0
  | .prefetching => if memory.state = .prefetching then memory.size else 0
  | .spilling => if memory.state = .spilling then memory.size else 0
  | .resident => if memory.state = .inMemory then memory.size else 0

def BlockMemory.contribution (memory : BlockMemory) (scope : Option MemoryTag) (counter : Counter) : ℕ :=
  if InScope memory.tag scope counter then memory.amount counter else 0

namespace Stats

variable {counter : Counter} {stats' : Stats} {memory' : BlockMemory}

def Covers (stats : Stats) (memory : BlockMemory) : Prop :=
  ∀ scope counter, InScope memory.tag scope counter → memory.amount counter ≤ stats.value scope counter

/-- The counters follow a change of one block. -/
structure Moves (stats stats' : Stats) (memory memory' : BlockMemory) : Prop where
  clamped : stats'.clamped = stats.clamped
  value : ∀ scope counter, stats'.value scope counter + memory.contribution scope counter =
    stats.value scope counter + memory'.contribution scope counter

section

variable (stats : Stats) (memory : BlockMemory) {delta : ℕ} {scope : Option MemoryTag} {c : Counter}

theorem value_add : (stats.add memory counter delta).value scope c =
      stats.value scope c + if c = counter ∧ InScope memory.tag scope c then delta else 0 := by
  rw [add]
  dsimp only
  split_ifs <;> rfl

theorem value_subtract : (stats.subtractOrSaturate memory counter delta).value scope c =
      stats.value scope c - if c = counter ∧ InScope memory.tag scope c then delta else 0 := by
  rw [subtractOrSaturate]
  dsimp only
  split_ifs <;> rfl

theorem value_subtract_of_ne (hne : c ≠ counter) :
    (stats.subtractOrSaturate memory counter delta).value scope c = stats.value scope c := by
  rw [value_subtract, if_neg (fun h => hne h.1), Nat.sub_zero]

@[simp] theorem clamped_add : (stats.add memory counter delta).clamped = stats.clamped := rfl

end

variable {memory : BlockMemory}

theorem clamped_subtract {stats : Stats} {delta : ℕ}
    (h : ∀ scope, InScope memory.tag scope counter → delta ≤ stats.value scope counter) :
    (stats.subtractOrSaturate memory counter delta).clamped = stats.clamped := by
  have ht := h _ (.inl rfl)
  have hto : counter ≠ .resident → delta ≤ stats.value none counter := fun hne => h none (.inr ⟨rfl, hne⟩)
  rw [subtractOrSaturate]
  rw [decide_eq_false (by omega), Bool.or_false]
  by_cases hne : counter = .resident
  · rw [decide_eq_false (by exact fun hn => hn hne), Bool.false_and, Bool.or_false]
  · have := hto hne
    rw [decide_eq_false (p := stats.value none counter < delta) (by omega), Bool.and_false, Bool.or_false]

/-- The values of a sum of additions and subtractions, compared in one record where the
block is counted. -/
theorem moves_of_inScope {stats : Stats} (ht : memory'.tag = memory.tag)
    (hcl : stats'.clamped = stats.clamped) (hin : ∀ scope counter, InScope memory.tag scope counter →
      stats'.value scope counter + memory.amount counter = stats.value scope counter + memory'.amount counter)
    (ho : ∀ scope counter, ¬ InScope memory.tag scope counter → stats'.value scope counter = stats.value scope counter) :
    stats.Moves stats' memory memory' := by
  refine ⟨hcl, ?_⟩
  intro scope counter
  rw [contribution, contribution, ht]
  split_ifs with hsc
  · exact hin scope counter hsc
  · rw [ho scope counter hsc]

theorem Moves.trans {stats stats'' : Stats} {memory memory'' : BlockMemory} (hf : stats.Moves stats' memory memory')
    (hse : stats'.Moves stats'' memory' memory'') :
    stats.Moves stats'' memory memory'' := by
  refine ⟨hse.clamped.trans hf.clamped, ?_⟩
  intro scope counter
  have h1 := hf.value scope counter
  have h2 := hse.value scope counter
  omega

theorem Moves.covers {stats : Stats} (hm : stats.Moves stats' memory memory')
    (hc : stats.Covers memory) (ht : memory'.tag = memory.tag) : stats'.Covers memory' := by
  intro scope counter hsc
  have hv := hm.value scope counter
  have hb := hc scope counter (ht ▸ hsc)
  rw [contribution, if_pos (ht ▸ hsc), contribution, if_pos hsc] at hv
  omega

variable {stats : Stats} {memory : BlockMemory}

theorem Moves.refl_of_amount (ht : memory'.tag = memory.tag)
    (ha : ∀ counter, memory'.amount counter = memory.amount counter) : stats.Moves stats memory memory' := by
  apply moves_of_inScope ht rfl
  · intro scope counter _
    rw [ha]
  · intro scope counter _
    rfl

theorem onReadSubmitted_moves (hs : memory.state = .spilled) (raw : RawRead) :
    stats.Moves (stats.onReadSubmitted memory) memory (memory.submitRead raw) := by
  rw [onReadSubmitted]
  refine moves_of_inScope ?_ ?_ ?_ ?_
  · rfl
  · rfl
  · intro scope counter hsc
    rw [value_add]
    cases counter <;> simp [amount, submitRead, hs, hsc]
  · intro scope counter hsc
    simp [value_add, hsc]

theorem recordAllocate_value (hs : memory.state = .inMemory) (hpin : memory.pinCount = 1)
    (scope : Option MemoryTag) (counter : Counter) :
    (stats.recordAllocate memory).value scope counter =
      stats.value scope counter + memory.contribution scope counter := by
  rw [recordAllocate, value_add, value_add, value_add, contribution]
  by_cases hsc : InScope memory.tag scope counter
  · cases counter <;> simp [amount, hs, hpin, hsc]
  · simp [hsc]

variable (hc : stats.Covers memory)
include hc

theorem Covers.size_le {scope : Option MemoryTag} (hsc : InScope memory.tag scope counter)
    (ha : memory.amount counter = memory.size) :
    memory.size ≤ stats.value scope counter :=
  ha ▸ hc scope counter hsc

/-- Bytes that move from one counter to another are counted once. -/
theorem transfer_moves {source target : Counter} (hso : memory.amount source = memory.size)
    (ht : memory'.tag = memory.tag)
    (ha : ∀ counter, memory'.amount counter + (if counter = source then memory.size else 0) =
      memory.amount counter + if counter = target then memory.size else 0) :
    stats.Moves ((stats.subtractOrSaturate memory source memory.size).add memory target memory.size) memory memory' := by
  refine moves_of_inScope ht ?_ ?_ ?_
  · exact clamped_subtract fun _ hsc => hc.size_le hsc hso
  · intro scope counter hsc
    have hb : counter = source → memory.size ≤ stats.value scope counter := by
      rintro rfl
      exact hc.size_le hsc hso
    rw [value_add, value_subtract]
    grind
  · intro scope counter hsc
    simp [value_add, value_subtract, hsc]

theorem onResidentPinned_moves (hs : memory.state = .inMemory) :
    stats.Moves (stats.onResidentPinned memory) memory memory.pinResident := by
  by_cases hpin : memory.pinCount = 0
  · rw [onResidentPinned, if_neg (not_not.mpr hpin)]
    refine transfer_moves hc (if_pos ⟨hs, hpin⟩) rfl fun counter => ?_
    cases counter <;> simp [amount, pinResident, hs, hpin]
  · rw [onResidentPinned, if_pos hpin]
    refine Moves.refl_of_amount ?_ ?_
    · rfl
    · intro counter
      cases counter <;> simp [amount, pinResident, hs, hpin]

theorem onResidentUnpinned_moves (hs : memory.state = .inMemory) (hpin : memory.pinCount = 1) :
    stats.Moves (stats.onResidentUnpinned memory.unpin) memory memory.unpin := by
  have hne : memory.pinCount ≠ 0 := by omega
  have hu : memory.unpin =
      { memory with pinCount := 0, evictionSequence := memory.evictionSequence + 1 } := by
    rw [unpin, if_pos ⟨by omega, hs⟩, hpin]
  rw [hu]
  refine transfer_moves hc (if_pos ⟨hs, hne⟩) rfl fun counter => ?_
  cases counter <;> simp [amount, hs, hne]

theorem onReadFutureConsumed_moves (hs : memory.state = .prefetching) :
    stats.Moves (stats.onReadFutureConsumed memory) memory { memory with prefetchFuture := none, state := .spilled } := by
  rw [onReadFutureConsumed]
  refine moves_of_inScope ?_ ?_ ?_ ?_
  · rfl
  · exact clamped_subtract fun _ hsc => hc.size_le hsc (if_pos hs)
  · intro scope counter hsc
    rw [value_subtract]
    have hb : InScope memory.tag scope .prefetching → _ := fun h => hc.size_le h (if_pos hs)
    cases counter <;> simp [amount, hs, hsc] at hb ⊢
    omega
  · intro scope counter hsc
    simp [value_subtract, hsc]

theorem onReadCompleted_moves (hs : memory.state = .spilled) (payload : List UInt8) :
    stats.Moves (stats.onReadCompleted memory) memory (memory.completeReadKeepBacking payload) := by
  rw [onReadCompleted]
  refine moves_of_inScope ?_ ?_ ?_ ?_
  · rfl
  · exact clamped_subtract fun _ hsc => hc.size_le hsc (if_pos (.inl hs))
  · intro scope counter hsc
    rw [value_add, value_add, value_subtract]
    have hb : InScope memory.tag scope .spilled → _ := fun h => hc.size_le h (if_pos (.inl hs))
    cases counter <;> simp [amount, completeReadKeepBacking, hs, hsc] at hb ⊢
    omega
  · intro scope counter hsc
    simp [value_add, value_subtract, hsc]

/-- Takes a payload out of memory: `delta` bytes leave the resident counters for another. -/
theorem leaveMemory_moves (hs : memory.state = .inMemory) (hpin : memory.pinCount = 0)
    (ht : memory'.tag = memory.tag)
    (hco : counter = .spilled ∧ memory'.state = .spilled ∨ counter = .spilling ∧ memory'.state = .spilling)
    (hsi : memory'.size = memory.size) :
    stats.Moves (((stats.subtractOrSaturate memory .unpinnedResident memory.size).add memory counter
      memory.size).subtractOrSaturate memory .resident memory.size) memory memory' := by
  have hne : counter ≠ .resident ∧ counter ≠ .unpinnedResident := by
    rcases hco with ⟨h, -⟩ | ⟨h, -⟩ <;> rw [h] <;> decide
  refine moves_of_inScope ht ?_ ?_ ?_
  · rw [clamped_subtract, clamped_add]
    · exact clamped_subtract fun _ hsc => hc.size_le hsc (if_pos ⟨hs, hpin⟩)
    · intro scope hsc
      rw [value_add, value_subtract, if_neg (fun h => by cases h.1), if_neg (fun h => hne.1 h.1.symm)]
      exact hc.size_le hsc (if_pos hs)
  · intro scope c hsc
    rw [value_subtract, value_add, value_subtract]
    have hu : InScope memory.tag scope .unpinnedResident → _ := fun h => hc.size_le h (if_pos ⟨hs, hpin⟩)
    have hr : InScope memory.tag scope .resident → _ := fun h => hc.size_le h (if_pos hs)
    rcases hco with ⟨rfl, hst'⟩ | ⟨rfl, hst'⟩ <;> cases c <;>
      simp [amount, hs, hst', hpin, hsi, hsc] at hu hr ⊢ <;> omega
  · intro scope c hsc
    simp [value_add, value_subtract, hsc]

section

variable (hs : memory.state = .inMemory) (hpin : memory.pinCount = 0)
include hs hpin

theorem onSpillStarted_moves : stats.Moves (stats.onSpillStarted memory.beginSpill) memory memory.beginSpill :=
  leaveMemory_moves hc hs hpin rfl (.inr ⟨rfl, rfl⟩) rfl

theorem onCleanResidentDiscarded_moves :
    stats.Moves (stats.onCleanResidentDiscarded memory) memory memory.discardResidentWithBacking :=
  leaveMemory_moves hc hs hpin rfl (.inl ⟨rfl, rfl⟩) rfl

end

theorem onSpillCompleted_moves (hs : memory.state = .spilling) (segment : SpillRecord) :
    stats.Moves (stats.onSpillCompleted memory) memory (memory.completeSpill segment) := by
  refine transfer_moves hc (if_pos hs) rfl fun counter => ?_
  cases counter <;> simp [amount, completeSpill, hs]

/-- What a destroyed block was counted for is taken off, and nothing has to clamp. -/
theorem onBlockMemoryDestroy_value (scope : Option MemoryTag) (counter : Counter) :
    (stats.onBlockMemoryDestroy memory).value scope counter + memory.contribution scope counter =
      stats.value scope counter := by
  have hb := hc scope counter
  rw [onBlockMemoryDestroy, contribution]
  by_cases hsc : InScope memory.tag scope counter
  · have ha := hb hsc
    cases hs : memory.state <;> by_cases hpin : memory.pinCount = 0 <;> cases counter <;>
      simp [value_subtract, amount, hs, hpin, hsc] at ha ⊢ <;> omega
  · cases hs : memory.state <;> by_cases hpin : memory.pinCount = 0 <;>
      simp [value_subtract, hpin, hsc]

theorem onBlockMemoryDestroy_clamped : (stats.onBlockMemoryDestroy memory).clamped = stats.clamped := by
  have hl : (stats.subtractOrSaturate memory .liveBlocks 1).clamped = stats.clamped :=
    clamped_subtract fun scope hsc => hc scope .liveBlocks hsc
  rw [onBlockMemoryDestroy]
  cases hs : memory.state with
  | inMemory =>
    have hr : ∀ counter, counter ≠ .resident → ∀ scope, InScope memory.tag scope .resident →
        memory.size ≤ ((stats.subtractOrSaturate memory .liveBlocks 1).subtractOrSaturate memory counter
          memory.size).value scope .resident := by
      intro counter hne scope hsc
      rw [value_subtract_of_ne _ _ hne.symm, value_subtract_of_ne _ _ (by decide)]
      exact hc.size_le hsc (if_pos hs)
    split_ifs with hpin
    all_goals
      rw [clamped_subtract (hr _ (by decide)), clamped_subtract, hl]
      intro scope hsc
      exact hc.size_le hsc (if_pos ⟨hs, hpin⟩)
  | spilled =>
    rw [clamped_subtract, hl]
    intro scope hsc
    exact hc.size_le hsc (if_pos (.inl hs))
  | prefetching =>
    rw [clamped_subtract, clamped_subtract, hl]
    · intro scope hsc
      exact hc.size_le hsc (if_pos (.inr hs))
    · intro scope hsc
      exact hc.size_le hsc (if_pos hs)
  | spilling =>
    rw [clamped_subtract, hl]
    intro scope hsc
    exact hc.size_le hsc (if_pos hs)

end Stats

end Bolt.BufferManager
