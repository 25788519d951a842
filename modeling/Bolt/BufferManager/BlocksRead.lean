import Bolt.BufferManager.BlocksReclaim

/-!
# Pins that fail

A pin of a spilled block submits a read and waits for it. When the submission throws or
the read ends with a failed result, the block is as it was. When the record that was read
cannot be decoded, the exception leaves the block in the middle of the read.
-/

namespace Bolt.BufferManager

open Lib Manager

variable {config : Config} {codec : SpillCodec} {manager : Manager} {memory : BlockMemory}

/-! ## Records that were written -/

theorem ofCode_code (kind : CompressionKind) : CompressionKind.ofCode kind.code = some kind := by
  cases kind <;> rfl

theorem storedPayload_buildSpillRecord (codec : SpillCodec) (kind : CompressionKind) (payload : List UInt8) :
    storedPayload (buildSpillRecord codec kind payload) payload.length =
      .ok (kind, if kind = .none then payload else codec.compress kind payload) := by
  unfold storedPayload buildSpillRecord decodeSpillRecordHeader
  dsimp only
  rw [if_neg (not_not.mpr rfl), if_neg (not_not.mpr rfl), if_neg (Nat.lt_irrefl _), if_neg (not_not.mpr rfl), ofCode_code]
  dsimp only
  rw [if_neg (by omega)]
  dsimp only
  rw [if_neg, Nat.sub_self, List.drop_zero, List.take_length]
  rintro ⟨rfl, hne⟩
  exact hne rfl

theorem decodePayload_stored (codec : SpillCodec) (kind : CompressionKind) (payload : List UInt8) :
    decodePayload codec kind (if kind = .none then payload else codec.compress kind payload) payload.length none =
      .ok payload := by
  unfold decodePayload
  rw [if_neg (by exact nofun)]
  by_cases hki : kind = .none
  · rw [if_pos hki, if_pos hki]
  · rw [if_neg hki, if_neg hki, if_neg (by exact nofun), codec.decompress_compress]

/-! ## The block while it is read -/

/-- The block after its read was submitted and `get` was called. -/
def BlockMemory.consuming (memory : BlockMemory) (raw : RawRead) : BlockMemory :=
  { memory.submitRead raw with prefetchFuture := some .consumed }

def Manager.submitted (manager : Manager) (memory : BlockMemory) (raw : RawRead) : Manager :=
  { manager with events := manager.events.recordPinRequest memory.tag }.update (memory.submitRead raw)
    (manager.stats.onReadSubmitted memory)

def Manager.consuming (manager : Manager) (memory : BlockMemory) (raw : RawRead) : Manager :=
  (manager.submitted memory raw).update (memory.consuming raw) (manager.stats.onReadSubmitted memory)

theorem Manager.finishRead_payload (hconsistent : Consistent codec manager) (hmemory : memory ∈ manager.blocks)
    (hstate : memory.state = .prefetching) (payload : List UInt8) :
    ∃ manager', manager.finishRead memory.id (some payload) = (.ok (), manager') ∧
      ∃ memory' ∈ manager'.blocks, memory'.id = memory.id ∧ memory'.payload = some payload := by
  have hs := (hconsistent.accounts.wellFormed memory hmemory).segment_isNone (.inr hstate)
  unfold finishRead
  rw [hconsistent.accounts.lookup hmemory]
  dsimp only
  rw [if_neg (by rw [hs]; decide)]
  refine ⟨_, rfl, { memory with prefetchFuture := none }.completeReadKeepBacking payload, ?_, rfl, rfl⟩
  exact Keyed.mem_replace_self hmemory rfl

section

variable (hconsistent : Consistent config.codec manager) (hmemory : memory ∈ manager.blocks)
  (hstate : memory.state = .spilled) (reads : ℕ → Option RawRead)
include hconsistent hmemory hstate

theorem Manager.consuming_spec (raw : RawRead) :
    Consistent config.codec (manager.consuming memory raw) ∧ memory.consuming raw ∈ (manager.consuming memory raw).blocks := by
  have hs := ((hconsistent.events (manager.events.recordPinRequest memory.tag)).submitRead hmemory (some raw)).consistent
  rw [submitRead_some (hconsistent.accounts.wellFormed memory hmemory) hstate] at hs
  have hin : memory.submitRead raw ∈ (manager.submitted memory raw).blocks := Keyed.mem_replace_self hmemory rfl
  exact ⟨(hs.takeFuture hin).consistent, Keyed.mem_replace_self hin rfl⟩

theorem Manager.pin_spilled {raw : RawRead} (hr : reads memory.id = some raw) : manager.pin config memory.id reads =
      Result.andThen ((manager.consuming memory raw).futureGet config raw memory.size) fun read manager =>
        manager.finishRead memory.id read := by
  have hn : ((manager.submitted memory raw).blocks.map BlockMemory.id).Nodup := by
    unfold submitted update
    rw [Keyed.map_key_replace]
    exact hconsistent.accounts.nodup
  have hl : (manager.submitted memory raw).lookup memory.id = some (memory.submitRead raw) :=
    @Keyed.lookup_of_mem _ _ _ BlockMemory.id _ (memory.submitRead raw) hn (Keyed.mem_replace_self hmemory rfl)
  unfold pin
  rw [hconsistent.accounts.lookup hmemory]
  dsimp only
  rw [hstate]
  rw [hr, pinSpilled, submitRead_some (hconsistent.accounts.wellFormed memory hmemory) hstate]
  change (manager.submitted memory raw).pinPrefetching config memory.id = _
  rw [pinPrefetching, hl]
  rfl

theorem Manager.pin_reads_back {kind : CompressionKind} {payload : List UInt8} (hl : payload.length = memory.size) (reclaims : List Reclaiming)
    (hr : reads memory.id = some (.bytes (buildSpillRecord config.codec kind payload) reclaims none)) :
    ∃ manager', manager.pin config memory.id reads = (.ok (), manager') ∧
      ∃ memory' ∈ manager'.blocks, memory'.id = memory.id ∧ memory'.payload = some payload := by
  obtain ⟨hc, hin⟩ := consuming_spec hconsistent hmemory hstate
    (.bytes (buildSpillRecord config.codec kind payload) reclaims none)
  obtain ⟨ha, hke, -⟩ := futureGet_spec hc
    (.bytes (buildSpillRecord config.codec kind payload) reclaims none) memory.size
  have hs := hke _ hin (not_spillable (by exact nofun))
  have hg : ((manager.consuming memory (.bytes (buildSpillRecord config.codec kind payload) reclaims none)).futureGet
      config (.bytes (buildSpillRecord config.codec kind payload) reclaims none) memory.size).1 = .ok (some payload) := by
    unfold futureGet
    dsimp only
    rw [← hl, storedPayload_buildSpillRecord]
    dsimp only
    rw [decodePayload_stored]
    rfl
  rw [pin_spilled hconsistent hmemory hstate reads hr, Result.andThen, hg]
  have hf := finishRead_payload ha hs rfl payload
  exact hf

/-- The failed pin has left the block spilled with its segment and no pin, and the
counters as they were, and a pin whose read succeeds returns the payload. -/
def Manager.Recovers (config : Config) (before after : Manager) (memory : BlockMemory) (payload : List UInt8) : Prop :=
  (∃ memory' ∈ after.blocks, memory'.id = memory.id ∧ memory'.state = .spilled ∧ memory'.segment = memory.segment ∧
    memory'.pinCount = 0) ∧
  after.stats.value = before.stats.value ∧
  ∀ reads record reclaims, memory.segment = some record → reads memory.id = some (.bytes record reclaims none) →
    ∃ later, after.pin config memory.id reads = (.ok (), later) ∧
      ∃ memory' ∈ later.blocks, memory'.id = memory.id ∧ memory'.payload = some payload

/-- The read fails before there is a record to decode: at its submission, or with an IO
result that is an error. -/
def FailsBeforeDecoding (read : Option RawRead) : Prop :=
  read = none ∨ read = some .ioError

omit hconsistent hmemory hstate in
theorem Manager.Recovers.of_spilled {after : Manager} (ha : Consistent config.codec after) {memory' : BlockMemory}
    (hmemory' : memory' ∈ after.blocks) (hid : memory'.id = memory.id) (hs : memory'.size = memory.size)
    (hstate : memory'.state = .spilled) (hse : memory'.segment = memory.segment)
    (hv : after.stats.value = manager.stats.value) {kind : CompressionKind} {payload : List UInt8}
    (hl : payload.length = memory.size)
    (hst : memory.segment = some (buildSpillRecord config.codec kind payload)) :
    Recovers config manager after memory payload := by
  have hp := (ha.accounts.wellFormed memory' hmemory').notPinned (by rw [hstate]; decide)
  refine ⟨⟨memory', hmemory', hid, hstate, hse, hp⟩, hv, ?_⟩
  intro reads record reclaims hre hr
  rw [hst] at hre
  cases hre
  rw [← hid] at hr ⊢
  exact pin_reads_back ha hmemory' hstate reads (hl.trans hs.symm) reclaims hr

/-- A submission that throws leaves the blocks and the counters alone. -/
theorem Manager.pin_submissionThrows (hr : reads memory.id = none) :
    (manager.pin config memory.id reads).2 = { manager with events := manager.events.recordPinRequest memory.tag } := by
  have hs := (hconsistent.accounts.wellFormed memory hmemory).segment_isNone (.inl hstate)
  unfold pin
  rw [hconsistent.accounts.lookup hmemory]
  dsimp only
  rw [hstate]
  unfold pinSpilled submitRead
  rw [hr, if_neg (not_not.mpr hstate), if_neg (by rw [hs]; decide)]
  rfl

/-- A read that ends with an error: the block is spilled again, and what was added to the
counters is taken off. -/
theorem Manager.pin_ioError (hr : reads memory.id = some .ioError) :
    ∃ memory' ∈ (manager.pin config memory.id reads).2.blocks, memory'.id = memory.id ∧ memory'.size = memory.size ∧
      memory'.state = .spilled ∧ memory'.segment = memory.segment ∧
      (manager.pin config memory.id reads).2.stats.value = manager.stats.value := by
  obtain ⟨hc, hin⟩ := consuming_spec hconsistent hmemory hstate .ioError
  have hsu := @Stats.onReadSubmitted_moves manager.stats memory hstate .ioError
  have hco := Stats.onReadFutureConsumed_moves (hc.accounts.covers hin) rfl
  have hl := hc.accounts.lookup hin
  rw [pin_spilled hconsistent hmemory hstate reads hr, futureGet, Result.andThen]
  unfold finishRead
  rw [show memory.id = (memory.consuming .ioError).id from rfl, hl]
  refine ⟨{ memory.consuming .ioError with prefetchFuture := none, state := .spilled },
    Keyed.mem_replace_self hin rfl, rfl, rfl, rfl, rfl, ?_⟩
  funext scope counter
  have h1 := hsu.value scope counter
  have h2 := hco.value scope counter
  have hs : BlockMemory.contribution { memory.consuming .ioError with prefetchFuture := none, state := .spilled } scope
      counter = memory.contribution scope counter := by
    show (if InScope memory.tag scope counter then _ else 0) = if InScope memory.tag scope counter then _ else 0
    congr 1
    cases counter <;> simp [BlockMemory.amount, BlockMemory.consuming, BlockMemory.submitRead, hstate]
  have hm : (memory.consuming .ioError).contribution scope counter =
      (memory.submitRead .ioError).contribution scope counter := by
    cases counter <;> rfl
  rw [hs] at h2
  have hst : (manager.consuming memory .ioError).stats = manager.stats.onReadSubmitted memory := rfl
  rw [hst] at h2
  show ((manager.stats.onReadSubmitted memory).onReadFutureConsumed (memory.consuming .ioError)).value scope counter = _
  omega

/-- When a record is read and the pin fails, the exception came out of `get`, and the
block is still in the middle of the read. -/
theorem Manager.pin_decodeFails {record : SpillRecord} {reclaims : List Reclaiming} {fault : Option DecodeFault}
    (hr : reads memory.id = some (.bytes record reclaims fault)) {e : BmError}
    (hf : (manager.pin config memory.id reads).1 = .error e) :
    memory.consuming (.bytes record reclaims fault) ∈ (manager.pin config memory.id reads).2.blocks := by
  obtain ⟨hc, hin⟩ := consuming_spec hconsistent hmemory hstate (.bytes record reclaims fault)
  obtain ⟨ha, hke, -⟩ := futureGet_spec hc (.bytes record reclaims fault) memory.size
  have hs := hke _ hin (not_spillable (by exact nofun))
  rw [pin_spilled hconsistent hmemory hstate reads hr] at hf ⊢
  cases hg : (manager.consuming memory (.bytes record reclaims fault)).futureGet config (.bytes record reclaims fault)
      memory.size with
  | mk result after =>
    rw [hg] at hs ha hf
    cases result with
    | error _ => exact hs
    | ok read =>
      cases read with
      | none =>
        unfold futureGet at hg
        dsimp only at hg
        split at hg
        · cases hg
        · cases hd : decodePayload config.codec _ _ memory.size fault with
          | error _ | ok _ =>
            rw [hd] at hg
            cases hg
      | some payload =>
        obtain ⟨manager', hfi, -⟩ := finishRead_payload ha hs rfl payload
        have ho : (after.finishRead memory.id (some payload)).1 = .ok () := congrArg Prod.fst hfi
        rw [Result.andThen, ho] at hf
        cases hf

end

/-- After every history, a failed pin of a spilled block can be made good exactly when its
read failed before there was a record to decode. -/
theorem failedPin_recovers_iff (config : Config) (calls : List Call) (memory : BlockMemory)
    (hmemory : memory ∈ (after config calls).blocks) (hstate : memory.state = .spilled)
    (reads : ℕ → Option RawRead) (e : BmError)
    (hfail : ((after config calls).pin config memory.id reads).1 = .error e) :
    ∃ kind payload, payload.length = memory.size ∧ memory.segment = some (buildSpillRecord config.codec kind payload) ∧
      (Recovers config (after config calls) ((after config calls).pin config memory.id reads).2
        memory payload ↔ FailsBeforeDecoding (reads memory.id)) := by
  have hconsistent := consistent_after config calls
  generalize after config calls = manager at hconsistent hmemory hfail
  have hwell := hconsistent.accounts.wellFormed memory hmemory
  have hafter := (hconsistent.pin memory.id reads).consistent
  obtain ⟨record, hrecord⟩ := Option.isSome_iff_exists.mp (hwell.segment (.inl hstate))
  obtain ⟨kind, payload, hlength, rfl⟩ := hwell.stored record hrecord
  refine ⟨kind, payload, hlength, hrecord, ?_⟩
  constructor
  · intro hrecovers
    obtain ⟨⟨memory', hmemory', hid, hspilled, -⟩, -⟩ := hrecovers
    cases hread : reads memory.id with
    | none => exact .inl rfl
    | some raw =>
      cases raw with
      | ioError => exact .inr rfl
      | bytes record reclaims fault =>
        have hstuck := pin_decodeFails hconsistent hmemory hstate reads hread hfail
        have hsame := Keyed.eq_of_key_eq hafter.accounts.nodup hmemory' hstuck hid
        rw [hsame] at hspilled
        cases hspilled
  · rintro (hread | hread)
    · have heq := pin_submissionThrows hconsistent hmemory hstate reads hread
      apply Recovers.of_spilled hafter _ rfl rfl hstate rfl _ hlength hrecord
      · rw [heq]
        exact hmemory
      · rw [heq]
    · obtain ⟨memory', hmemory', hid, hsize, hspilled, hsegment, hvalue⟩ :=
        pin_ioError hconsistent hmemory hstate reads hread
      exact Recovers.of_spilled hafter hmemory' hid hsize hspilled hsegment hvalue hlength hrecord

/-- A block of two bytes is written out. -/
def writeOut : List Call := [.allocate 2 .sort (fun _ => 7), .unpin 1, .reclaim ⟨0, fun _ => .written .none⟩]

def writtenOut : BlockMemory :=
  { id := 1, size := 2, tag := .sort, state := .spilled, dirty := false, evictionSequence := 2
    segment := some (buildSpillRecord .identity .none [7, 7]) }

/-- The read of the block ends with an error. -/
theorem failedPin_recovers_ioError : ∃ payload, Recovers ⟨.identity, 1⟩ (after ⟨.identity, 1⟩ writeOut)
      ((after ⟨.identity, 1⟩ writeOut).pin ⟨.identity, 1⟩ 1 fun _ => some .ioError).2 writtenOut payload := by
  obtain ⟨kind, payload, -, -, hiff⟩ := failedPin_recovers_iff ⟨.identity, 1⟩ writeOut writtenOut
    (List.mem_singleton.mpr rfl) rfl (fun _ => some .ioError) (.spillReadFailed 1) rfl
  exact ⟨payload, hiff.mpr (.inr rfl)⟩

/-- The record is read back as it was written, and allocating its payload fails. The failed
pin leaves the block in the middle of the read and its bytes counted as prefetching, and a
later pin, whose read would succeed, fails as well. -/
theorem failedPin_stuck :
    let manager := after ⟨.identity, 1⟩ writeOut
    let record := buildSpillRecord .identity .none [7, 7]
    let failed := manager.pin ⟨.identity, 1⟩ 1 fun _ => some (.bytes record [] (some .allocation))
    let later := failed.2.pin ⟨.identity, 1⟩ 1 fun _ => some (.bytes record [] none)
    failed.1.isOk = false ∧ manager.blocks.map BlockMemory.state = [.spilled] ∧
      failed.2.blocks.map BlockMemory.state = [.prefetching] ∧ manager.stats.value none .prefetching = 0 ∧
      failed.2.stats.value none .prefetching = 2 ∧ later.1.isOk = false := by
  decide +kernel

end Bolt.BufferManager
