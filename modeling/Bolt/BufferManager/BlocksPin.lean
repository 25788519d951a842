import Bolt.BufferManager.BlocksSpill

/-!
# Pins, reads and whole runs

A pin of a block that is not in memory waits for its read. While the payload is decoded,
other blocks may be reclaimed; the block that is read stays as it is. With this every
call keeps the invariant.
-/

namespace Bolt.BufferManager

open Lib Manager

variable {config : Config} {manager : Manager} {memory : BlockMemory}

theorem decodeSpillRecordHeader_ok {header : SpillRecordHeader} {size raw : ℕ} {kind : CompressionKind}
    (h : decodeSpillRecordHeader header size raw = .ok kind) :
    header.rawSize = raw ∧ spillRecordHeaderSize ≤ header.headerSize ∧ header.headerSize ≤ size ∧
      header.storedSize ≤ size - header.headerSize := by
  unfold decodeSpillRecordHeader at h
  split_ifs at h with h1 h2 h3 h4 h5
  · split at h <;> cases h
  · refine ⟨not_not.mp h4, ?_, ?_, ?_⟩ <;> omega

theorem length_decoded {record : SpillRecord} {expectedRawSize : ℕ} {stored : CompressionKind × List UInt8}
    {fault : Option DecodeFault} {payload : List UInt8} (hs : storedPayload record expectedRawSize = .ok stored)
    (hd : decodePayload config.codec stored.1 stored.2 expectedRawSize fault = .ok payload) :
    payload.length = expectedRawSize := by
  unfold storedPayload at hs
  cases hh : record.header with
  | none =>
    rw [hh] at hs
    cases hs
  | some header =>
    rw [hh] at hs
    dsimp only at hs
    split at hs
    · cases hs
    · next kind hki =>
      obtain ⟨hra, hmi, hma, hr⟩ := decodeSpillRecordHeader_ok hki
      split_ifs at hs with hsi
      cases hs
      unfold decodePayload at hd
      split_ifs at hd with h1 h2 h3
      · cases hd
        rw [List.length_take, List.length_drop]
        have hsa : header.storedSize = header.rawSize := by
          by_contra hne
          exact hsi ⟨h2, hne⟩
        omega
      · split at hd
        · cases hd
        · next raw hde =>
          cases hd
          exact config.codec.length_decompress _ _ _ _ hde

section

variable (hc : Consistent config.codec manager)
include hc

/-- Reclaiming in between keeps the invariant and the blocks that cannot be spilled. -/
theorem Consistent.reclaims (reclaims : List Reclaiming) : Consistent config.codec
      (reclaims.foldl (fun manager reclaiming => (manager.reclaim config reclaiming).2) manager) ∧
    ∀ memory ∈ manager.blocks, spillable memory = false →
      memory ∈ (reclaims.foldl (fun manager reclaiming => (manager.reclaim config reclaiming).2) manager).blocks := by
  induction reclaims generalizing manager with
  | nil => exact ⟨hc, fun _ hm _ => hm⟩
  | cons reclaiming rest ih =>
    obtain ⟨hr, hke⟩ := ih (hc.reclaim reclaiming)
    refine ⟨hr, ?_⟩
    intro memory hm hn
    exact hke memory (reclaim_keeps hc reclaiming hm hn) hn

theorem Manager.futureGet_spec (raw : RawRead) (expectedRawSize : ℕ) :
    Consistent config.codec (manager.futureGet config raw expectedRawSize).2 ∧
    (∀ memory ∈ manager.blocks, spillable memory = false →
      memory ∈ (manager.futureGet config raw expectedRawSize).2.blocks) ∧
    ∀ payload, (manager.futureGet config raw expectedRawSize).1 = .ok (some payload) →
      payload.length = expectedRawSize := by
  unfold futureGet
  cases raw with
  | ioError => exact ⟨hc, fun _ hm _ => hm, nofun⟩
  | bytes record reclaims fault =>
    dsimp only
    cases hs : storedPayload record expectedRawSize with
    | error e => exact ⟨hc, fun _ hm _ => hm, nofun⟩
    | ok stored =>
      obtain ⟨hr, hke⟩ := hc.reclaims reclaims
      refine ⟨hr, hke, ?_⟩
      intro payload hp
      dsimp only at hp
      cases hd : decodePayload config.codec stored.1 stored.2 expectedRawSize fault with
      | error e =>
        rw [hd] at hp
        cases hp
      | ok decoded =>
        rw [hd] at hp
        cases hp
        exact length_decoded hs hd

omit hc in
theorem Manager.Pinned.keeps {manager' : Manager} {blockId : ℕ} (hpi : manager.Pinned blockId)
    (hke : ∀ memory ∈ manager.blocks, spillable memory = false → memory ∈ manager'.blocks) :
    manager'.Pinned blockId := by
  obtain ⟨memory, hm, hid, hp⟩ := hpi
  refine ⟨memory, hke memory hm ?_, hid, hp⟩
  rw [spillable, decide_eq_false_iff_not]
  exact fun h => hp h.1

section Loads

variable (hm : memory ∈ manager.blocks)
include hm

/-- A read ends: with a failed result the block is spilled again, with a payload it is in
memory and pinned. -/
theorem Consistent.finishRead (hst : memory.state = .prefetching) {read : Option (List UInt8)}
    (hl : ∀ payload, read = some payload → payload.length = memory.size) :
    Follows config.codec manager (manager.finishRead memory.id read).2 := by
  have hw := hc.accounts.wellFormed memory hm
  have hcov := hc.accounts.covers hm
  have hco := Stats.onReadFutureConsumed_moves hcov hst
  unfold Manager.finishRead
  rw [hc.accounts.lookup hm]
  cases read with
  | none =>
    apply Follows.events
    apply hc.follows_update hm
    · rfl
    · exact hw.readFailed hst
    · exact hco
    · exact Nat.le_refl _
    · intro hsp
      cases (spillable_iff.mp hsp).2.1
    · exact id
  | some payload =>
    dsimp only
    split_ifs with hs
    · rw [hw.segment_isNone (.inr hst)] at hs
      cases hs
    · have hcom := Stats.onReadCompleted_moves (hco.covers hcov rfl) rfl payload
      apply hc.follows_update hm
      · rfl
      · exact (hw.withFuture none).completeRead (hl payload rfl)
      · exact hco.trans hcom
      · exact Nat.le_succ _
      · intro hsp
        cases (spillable_iff.mp hsp).1
      · exact fun _ => Nat.one_ne_zero

/-- A block keeps its future, without the result, while `get` runs. -/
theorem Consistent.takeFuture :
    Follows config.codec manager (manager.update { memory with prefetchFuture := some .consumed } manager.stats) := by
  apply hc.follows_update hm
  · rfl
  · exact (hc.accounts.wellFormed memory hm).withFuture _
  · apply Stats.Moves.refl_of_amount
    · rfl
    · intro counter
      cases counter <;> rfl
  · exact Nat.le_refl _
  · intro hs
    exact ⟨hs, rfl⟩
  · exact id

theorem Consistent.pinPrefetching (hst : memory.state = .prefetching) :
    Follows config.codec manager (manager.pinPrefetching config memory.id).2 := by
  unfold Manager.pinPrefetching
  rw [hc.accounts.lookup hm]
  dsimp only
  split
  · exact hc.follows
  · exact hc.follows
  · next raw hfuture =>
    have hin : { memory with prefetchFuture := some .consumed } ∈
        (manager.update { memory with prefetchFuture := some .consumed } manager.stats).blocks :=
      Keyed.mem_replace_self hm rfl
    have ht := hc.takeFuture hm
    obtain ⟨hg, hke, hl⟩ := futureGet_spec ht.consistent raw memory.size
    have hs := hke _ hin (not_spillable (by rw [hst]; decide))
    have hgo := ht.trans ⟨hg, fun _ hpi => hpi.keeps hke⟩
    rw [Result.andThen]
    split
    · next read hr =>
      apply hgo.trans
      apply Consistent.finishRead hg hs hst
      intro payload hp
      exact hl payload (hr.trans (congrArg Except.ok hp))
    · exact hgo

theorem Consistent.pinSpilled (read : Option RawRead) :
    Follows config.codec manager (manager.pinSpilled config memory read).2 := by
  have hs := hc.submitRead hm read
  unfold Manager.pinSpilled
  cases hr : manager.submitRead memory read with
  | mk result submitted =>
    rw [hr] at hs
    cases result with
    | error e => exact hs
    | ok _ =>
      obtain ⟨_, raw, rfl, rfl⟩ := submitRead_ok hr
      have hin : memory.submitRead raw ∈
          (manager.update (memory.submitRead raw) (manager.stats.onReadSubmitted memory)).blocks :=
        Keyed.mem_replace_self hm rfl
      have hp := hs.consistent.pinPrefetching hin rfl
      exact hs.trans hp

end Loads

theorem Consistent.pin (blockId : ℕ) (reads : ℕ → Option RawRead) :
    Follows config.codec manager (manager.pin config blockId reads).2 := by
  unfold Manager.pin
  split
  · exact hc.follows
  · next memory hl =>
    have hm := lookup_mem hl
    have hco := hc.events (manager.events.recordPinRequest memory.tag)
    refine @Follows.trans _ manager _ _ ⟨hco, fun _ hp => hp⟩ ?_
    cases hs : memory.state with
    | inMemory => exact hco.pinInMemory hm hs
    | spilled => exact hco.pinSpilled hm (reads blockId)
    | prefetching =>
      rw [← lookup_id hl]
      exact hco.pinPrefetching hm hs
    | spilling => exact hco.follows

theorem Consistent.prefetch (reads : ℕ → Option RawRead) (blocks : List ℕ) :
    Follows config.codec manager (manager.prefetch reads blocks).2 := by
  induction blocks generalizing manager with
  | nil => exact hc.follows
  | cons blockId rest ih =>
    rw [prefetch]
    split
    · exact hc.follows
    · next memory hl =>
      split_ifs
      · apply Result.andThen_state
        · exact hc.submitRead (lookup_mem hl) (reads blockId)
        · intro _ submitted hs
          exact hs.trans (ih hs.consistent)
      · exact ih hc

theorem Consistent.unpinAll (blocks : List ℕ) : Consistent config.codec (manager.unpinAll blocks) := by
  induction blocks generalizing manager with
  | nil => exact hc
  | cons blockId rest ih => exact ih (hc.unpin blockId)

theorem Consistent.pinAll (reads : ℕ → Option RawRead) (pinned blocks : List ℕ) :
    Consistent config.codec (manager.pinAll config reads pinned blocks).2 := by
  induction blocks generalizing manager pinned with
  | nil => exact hc
  | cons blockId rest ih =>
    have hp := (hc.pin blockId reads).consistent
    rw [pinAll]
    split
    · next hr =>
      rw [hr] at hp
      exact ih hp _
    · next hr =>
      rw [hr] at hp
      exact hp.unpinAll pinned

theorem Consistent.batchPin (blocks : List ℕ) (reads : ℕ → Option RawRead) :
    Consistent config.codec (manager.batchPin config blocks reads).2 := by
  apply Result.andThen_state
  · exact (hc.prefetch reads blocks).consistent
  · intro _ manager hma
    exact hma.pinAll reads [] blocks

theorem Consistent.step (call : Call) : Consistent config.codec (manager.step config call) := by
  cases call with
  | allocate size tag fill => exact hc.allocate size tag fill
  | pin blockId reads => exact (hc.pin blockId reads).consistent
  | batchPin blocks reads => exact hc.batchPin blocks reads
  | prefetch blocks reads => exact (hc.prefetch reads blocks).consistent
  | unpin blockId => exact hc.unpin blockId
  | markDirty blockId => exact (hc.markDirty blockId).consistent
  | writePayload blockId fill => exact (hc.writePayload blockId fill).consistent
  | spillBlocks blocks writes => exact hc.spillBlocks blocks writes
  | reclaim reclaiming => exact hc.reclaim reclaiming
  | discardCleanResidentBlocks blocks => exact (hc.discardCleanResidentBlocks blocks).consistent
  | destroy blockId => exact hc.destroy blockId

end

def Manager.after (config : Config) (calls : List Call) : Manager :=
  calls.foldl (step config) create

theorem consistent_after (config : Config) (calls : List Call) : Consistent config.codec (after config calls) := by
  unfold after
  generalize hs : create = start
  have hc : Consistent config.codec start := hs ▸ Consistent.create
  clear hs
  induction calls generalizing start with
  | nil => exact hc
  | cons call rest ih => exact ih _ (hc.step call)

end Bolt.BufferManager
