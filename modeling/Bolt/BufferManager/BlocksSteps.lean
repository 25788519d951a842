import Bolt.BufferManager.BlocksInvariant

/-!
# Operations on one block keep the invariant

Allocation, destruction, pins of resident blocks, the submission of a read and its end.
-/

namespace Bolt.BufferManager

open Lib List Manager

variable {codec : SpillCodec} {manager : Manager} {memory : BlockMemory}

namespace BlockMemory

theorem unpin_eq : ∃ sequence, memory.unpin =
    { memory with pinCount := memory.pinCount - 1, evictionSequence := sequence } ∧
    memory.evictionSequence ≤ sequence := by
  rw [BlockMemory.unpin]
  split_ifs
  · exact ⟨_, rfl, Nat.le_succ _⟩
  · exact ⟨_, rfl, Nat.le_refl _⟩

section

variable (hw : memory.WellFormed codec)
include hw

theorem WellFormed.notPinned (hs : memory.state ≠ .inMemory) : memory.pinCount = 0 := by
  by_contra hne
  exact hs (hw.pinned hne)

theorem WellFormed.segment_isNone (hs : memory.state = .spilled ∨ memory.state = .prefetching) :
    memory.segment.isNone = false := by
  rw [← Option.not_isSome, hw.segment hs]
  rfl

theorem WellFormed.withFuture (future : Option SpillReadFuture) :
    { memory with prefetchFuture := future }.WellFormed codec :=
  { hw with }

theorem WellFormed.pinResident (hs : memory.state = .inMemory) : memory.pinResident.WellFormed codec :=
  { hw with pinned := fun _ => hs }

theorem WellFormed.unpin : memory.unpin.WellFormed codec := by
  obtain ⟨sequence, heq, -⟩ := @unpin_eq memory
  rw [heq]
  refine { hw with pinned := ?_ }
  intro hne
  apply hw.pinned
  intro hz
  exact hne (by dsimp only; omega)

/-- A block without payload stays well formed while it moves between the states it has
none in. -/
theorem WellFormed.moveUnloaded (hst : memory.state ≠ .inMemory) {moved : BlockMemory}
    (hp : moved.payload = memory.payload) (hpi : moved.pinCount = memory.pinCount)
    (hm : moved.state ≠ .inMemory) (hs : moved.segment.isSome)
    (hsto : ∀ record, moved.segment = some record →
      ∃ kind payload, payload.length = moved.size ∧ record = buildSpillRecord codec kind payload) :
    moved.WellFormed codec := by
  have hn : moved.payload = none := by
    rw [hp, ← Option.not_isSome_iff_eq_none, hw.payload_iff]
    exact hst
  have hz : moved.pinCount = 0 := hpi.trans (hw.notPinned hst)
  exact {
    payload_iff := by simp [hn, hm]
    payload_length := by simp [hn]
    segment := fun _ => hs
    stored := hsto
    pinned := fun hne => absurd hz hne }

theorem WellFormed.submitRead (hs : memory.state = .spilled) (raw : RawRead) :
    (memory.submitRead raw).WellFormed codec :=
  hw.moveUnloaded (by simp [hs]) rfl rfl nofun (hw.segment (.inl hs)) hw.stored

theorem WellFormed.readFailed (hs : memory.state = .prefetching) :
    { memory with prefetchFuture := none, state := .spilled }.WellFormed codec :=
  hw.moveUnloaded (by simp [hs]) rfl rfl nofun (hw.segment (.inr hs)) hw.stored

theorem WellFormed.completeRead {payload : List UInt8} (hl : payload.length = memory.size) :
    (memory.completeReadKeepBacking payload).WellFormed codec where
  payload_iff := ⟨fun _ => rfl, fun _ => rfl⟩
  payload_length := by
    intro other ho
    cases ho
    exact hl
  segment := by
    intro h
    rcases h with h | h <;> cases h
  stored := hw.stored
  pinned := fun _ => rfl

theorem WellFormed.beginSpill (hp : memory.pinCount = 0) : memory.beginSpill.WellFormed codec where
  payload_iff := ⟨nofun, nofun⟩
  payload_length := nofun
  segment := by
    intro h
    rcases h with h | h <;> cases h
  stored := hw.stored
  pinned := fun hne => absurd hp hne

theorem WellFormed.discard (hp : memory.pinCount = 0) (hs : memory.segment.isSome) :
    memory.discardResidentWithBacking.WellFormed codec where
  payload_iff := ⟨nofun, nofun⟩
  payload_length := nofun
  segment := fun _ => hs
  stored := hw.stored
  pinned := fun hne => absurd hp hne

theorem WellFormed.completeSpill (hs : memory.state = .spilling) {payload : List UInt8}
    (hl : payload.length = memory.size) (kind : CompressionKind) :
    (memory.completeSpill (buildSpillRecord codec kind payload)).WellFormed codec := by
  refine hw.moveUnloaded (by simp [hs]) rfl rfl nofun rfl ?_
  intro record hr
  cases hr
  exact ⟨kind, payload, hl, rfl⟩

end

end BlockMemory

theorem not_spillable (hs : memory.state ≠ .inMemory) : spillable memory = false := by
  rw [spillable, decide_eq_false_iff_not]
  exact fun h => hs h.2.1

theorem Consistent.create : Consistent codec create := by
  constructor
  · refine ⟨nodup_nil, ?_, ?_, ?_, rfl⟩
    · intro memory hm
      cases hm
    · intro memory hm
      cases hm
    · intro scope counter
      rfl
  · refine ⟨?_, ?_, ?_⟩
    · intro entry hen
      cases hen
    · intro entry hen
      cases hen
    · intro memory hm
      cases hm

section

variable (hc : Consistent codec manager)
include hc

/-- An allocation keeps the manager consistent. -/
theorem Consistent.allocate (size : ℕ) (tag : MemoryTag) (fill : ℕ → UInt8) :
    Consistent codec (manager.allocate size tag fill).2 := by
  rw [Manager.allocate]
  split_ifs
  · exact hc
  · have ha := hc.accounts
    have hq := hc.queue
    have hn : ∀ memory ∈ manager.blocks, memory.id ≠ manager.nextBlockId :=
      fun memory hm => Nat.ne_of_lt (ha.ids_lt memory hm)
    constructor
    · refine ⟨?_, ?_, ?_, ?_, ha.clamped⟩
      · rw [map_append, nodup_append]
        refine ⟨ha.nodup, nodup_singleton _, ?_⟩
        intro id hid other ho heq
        obtain ⟨memory, hm, rfl⟩ := mem_map.mp hid
        rw [map_cons, map_nil, mem_singleton] at ho
        exact hn memory hm (heq.trans ho)
      · intro memory hm
        rcases mem_append.mp hm with hold | hn
        · exact (ha.ids_lt memory hold).trans (Nat.lt_succ_self _)
        · rw [mem_singleton.mp hn]
          exact Nat.lt_succ_self _
      · intro memory hm
        rcases mem_append.mp hm with hold | hn
        · exact ha.wellFormed memory hold
        · rw [mem_singleton.mp hn]
          refine ⟨⟨fun _ => rfl, fun _ => rfl⟩, ?_, ?_, nofun, fun _ => rfl⟩
          · intro payload hp
            cases hp
            rw [length_map, length_range]
          · intro h
            rcases h with h | h <;> cases h
      · intro scope counter
        rw [Stats.recordAllocate_value rfl rfl, map_append, sum_append, ha.value]
        rfl
    · refine ⟨?_, ?_, ?_⟩
      · intro entry hen
        exact (hq.entries_lt entry hen).trans (Nat.lt_succ_self _)
      · intro entry hen memory hm hid
        rcases mem_append.mp hm with hold | hn
        · exact hq.entries_le entry hen memory hold hid
        · rw [mem_singleton.mp hn] at hid
          exact absurd hid.symm (Nat.ne_of_lt (hq.entries_lt entry hen))
      · intro memory hm hs
        rcases mem_append.mp hm with hold | hn
        · exact hq.queued memory hold hs
        · rw [mem_singleton.mp hn] at hs
          cases hs

variable (blockId : ℕ)

/-- So does the destruction of a block. -/
theorem Consistent.destroy : Consistent codec (manager.destroy blockId) := by
  rw [Manager.destroy]
  split
  · exact hc
  · next memory hl =>
    have hm := lookup_mem hl
    have ha := hc.accounts
    have hq := hc.queue
    rw [← lookup_id hl]
    constructor
    · refine ⟨Keyed.nodup_remove ha.nodup, ?_, ?_, ?_, ?_⟩
      · intro other ho
        exact ha.ids_lt other (Keyed.mem_remove.mp ho).1
      · intro other ho
        exact ha.wellFormed other (Keyed.mem_remove.mp ho).1
      · intro scope counter
        have hs := Keyed.sum_remove (fun memory : BlockMemory => memory.contribution scope counter) ha.nodup
          hm
        have hv := ha.value scope counter
        have hd := Stats.onBlockMemoryDestroy_value (ha.covers hm) scope counter
        dsimp only at hs ⊢
        omega
      · exact (Stats.onBlockMemoryDestroy_clamped (ha.covers hm)).trans ha.clamped
    · refine ⟨hq.entries_lt, ?_, ?_⟩
      · intro entry hen other ho
        exact hq.entries_le entry hen other (Keyed.mem_remove.mp ho).1
      · intro other ho
        exact hq.queued other (Keyed.mem_remove.mp ho).1

theorem Consistent.pinInMemory (hm : memory ∈ manager.blocks) (hs : memory.state = .inMemory) :
    Follows codec manager (manager.pinInMemory memory).2 := by
  rw [Manager.pinInMemory]
  split_ifs
  · exact hc.follows
  · apply hc.follows_update hm
    · rfl
    · exact (hc.accounts.wellFormed memory hm).pinResident hs
    · exact Stats.onResidentPinned_moves (hc.accounts.covers hm) hs
    · exact Nat.le_succ _
    · intro hsp
      exact absurd (spillable_iff.mp hsp).1 (Nat.succ_ne_zero _)
    · exact fun _ => Nat.succ_ne_zero _

/-- The last pin of a resident block queues it under a generation that no entry has. -/
theorem Consistent.unpin : Consistent codec (manager.unpin blockId).2 := by
  rw [Manager.unpin]
  split
  · exact hc
  · next memory hlo =>
    have hm := lookup_mem hlo
    have hid := lookup_id hlo
    have hw := hc.accounts.wellFormed memory hm
    obtain ⟨sequence, heq, hs⟩ := @BlockMemory.unpin_eq memory
    split_ifs with hz hl
    · exact hc
    · have hla' : memory.pinCount - 1 = 0 ∧ memory.state = .inMemory := by rwa [heq] at hl
      have hu : memory.unpin =
          { memory with pinCount := memory.pinCount - 1, evictionSequence := memory.evictionSequence + 1 } := by
        rw [BlockMemory.unpin, if_pos hla']
      have hst : ∀ entry ∈ manager.evictionQueue, entry ≠ ⟨blockId, memory.evictionSequence + 1⟩ := by
        intro entry hen heq
        have hle := hc.queue.entries_le entry hen memory hm (by rw [heq, hid])
        rw [heq] at hle
        exact absurd hle (Nat.not_succ_le_self _)
      have ha : Accounts codec
          (manager.update memory.unpin (manager.stats.onResidentUnpinned memory.unpin)) :=
        hc.accounts.update hm (by rw [heq]) hw.unpin
          (Stats.onResidentUnpinned_moves (hc.accounts.covers hm) hla'.2 (by omega))
      constructor
      · exact { ha with }
      · refine ⟨?_, ?_, ?_⟩
        · intro entry hen
          rcases mem_append.mp hen with hold | hn
          · exact hc.queue.entries_lt entry hold
          · rw [mem_singleton.mp hn, ← hid]
            exact hc.accounts.ids_lt memory hm
        · intro entry hen other ho hke
          rcases mem_append.mp hen with hold | hn
          · rcases Keyed.mem_replace ho with rfl | ⟨ho, _⟩
            · rw [hu] at hke ⊢
              exact (hc.queue.entries_le entry hold memory hm hke).trans (Nat.le_succ _)
            · exact hc.queue.entries_le entry hold other ho hke
          · rw [mem_singleton.mp hn] at hke ⊢
            rcases Keyed.mem_replace ho with rfl | ⟨_, hne⟩
            · exact Nat.le_refl _
            · rw [hu] at hne
              exact absurd (hke.trans hid.symm) hne
        · intro other ho hsp _
          rw [count_append, count_singleton]
          rcases Keyed.mem_replace ho with rfl | ⟨ho, hne⟩
          · have hco : manager.evictionQueue.count ⟨memory.unpin.id, memory.unpin.evictionSequence⟩ = 0 := by
              apply count_eq_zero.mpr
              intro hin
              rw [hu] at hin
              exact hst _ hin (by rw [hid])
            rw [hco, hu, ← hid]
            simp
          · have hco := hc.queue.queued other ho hsp (by intro h; cases h)
            rw [hu] at hne
            rw [hco, if_neg]
            rw [beq_iff_eq]
            intro heq
            exact hne ((EvictionEntry.mk.inj heq).1.symm.trans hid.symm)
    · have hu : memory.unpin = { memory with pinCount := memory.pinCount - 1 } := by
        rw [BlockMemory.unpin, if_neg]
        rwa [heq] at hl
      apply hc.update hm
      · rw [heq]
      · exact hw.unpin
      · have hinm := hw.pinned hz
        have hp : ¬ memory.pinCount - 1 = 0 := by
          intro hone
          rw [heq] at hl
          exact hl ⟨hone, hinm⟩
        apply Stats.Moves.refl_of_amount
        · rw [hu]
        · intro counter
          rw [hu]
          cases counter <;> simp [BlockMemory.amount, hinm, hz, hp]
      · rw [heq]
        exact hs
      · intro hsp
        have hinm := hw.pinned hz
        have hno := (spillable_iff.mp hsp).1
        rw [heq] at hno hl
        exact absurd ⟨hno, hinm⟩ hl

theorem Consistent.markDirty : Follows codec manager (manager.markDirty blockId).2 := by
  rw [Manager.markDirty]
  split
  · exact hc.follows
  · next memory hl =>
    have hm := lookup_mem hl
    have hw := hc.accounts.wellFormed memory hm
    split_ifs
    · exact hc.follows
    · apply hc.follows_update hm
      · rfl
      · exact { hw with }
      · apply Stats.Moves.refl_of_amount
        · rfl
        · intro counter
          cases counter <;> rfl
      · exact Nat.le_refl _
      · intro hs
        exact ⟨hs, rfl⟩
      · exact id

theorem Consistent.writePayload (fill : ℕ → UInt8) : Follows codec manager (manager.writePayload blockId fill) := by
  rw [Manager.writePayload]
  split
  · exact hc.follows
  · next memory hl =>
    have hm := lookup_mem hl
    have hw := hc.accounts.wellFormed memory hm
    split_ifs with hs
    · exact hc.follows
    · obtain ⟨hpi, hn⟩ := not_or.mp hs
      have hso : memory.payload.isSome := Option.isSome_iff_ne_none.mpr fun h => hn (Option.isNone_iff_eq_none.mpr h)
      apply hc.follows_update hm
      · rfl
      · refine ⟨?_, ?_, hw.segment, hw.stored, hw.pinned⟩
        · exact ⟨fun _ => hw.payload_iff.mp hso, fun _ => rfl⟩
        · intro payload hp
          cases hp
          rw [length_map, length_range]
      · apply Stats.Moves.refl_of_amount
        · rfl
        · intro counter
          cases counter <;> rfl
      · exact Nat.le_refl _
      · intro hsp
        exact absurd (spillable_iff.mp hsp).1 hpi
      · exact id

end

theorem Manager.submitRead_ok {read : Option RawRead} {submitted : Manager}
    (h : manager.submitRead memory read = (.ok (), submitted)) :
    memory.state = .spilled ∧ ∃ raw, read = some raw ∧
      submitted = manager.update (memory.submitRead raw) (manager.stats.onReadSubmitted memory) := by
  unfold Manager.submitRead at h
  split_ifs at h with hst hs
  · cases h
  · cases h
  · cases read with
    | none => cases h
    | some raw =>
      cases h
      exact ⟨not_not.mp hst, raw, rfl, rfl⟩

theorem Manager.submitRead_some (hw : memory.WellFormed codec) (hs : memory.state = .spilled) (raw : RawRead) :
    manager.submitRead memory (some raw) =
      (.ok (), manager.update (memory.submitRead raw) (manager.stats.onReadSubmitted memory)) := by
  unfold Manager.submitRead
  rw [if_neg (not_not.mpr hs), hw.segment_isNone (.inl hs), if_neg Bool.false_ne_true]

theorem Consistent.submitRead (hc : Consistent codec manager) (hm : memory ∈ manager.blocks)
    (read : Option RawRead) : Follows codec manager (manager.submitRead memory read).2 := by
  unfold Manager.submitRead
  split_ifs with hs
  · exact hc.follows
  · exact hc.follows
  · rw [not_not] at hs
    cases read with
    | none => exact hc.follows
    | some raw =>
      apply hc.follows_update hm
      · rfl
      · exact (hc.accounts.wellFormed memory hm).submitRead hs raw
      · exact Stats.onReadSubmitted_moves hs raw
      · exact Nat.le_refl _
      · intro hsp
        cases (spillable_iff.mp hsp).2.1
      · exact id

end Bolt.BufferManager
