import Bolt.Lib.Keyed

/-!
# Blocks of the buffer manager

A block is in memory, spilled, being read back or being written out. The manager pins
blocks, queues a block for eviction when its last pin goes, and spills queued blocks to
reclaim memory. How a submitted read or write ends is an input of the operation, one
outcome for each block. An operation that throws leaves the state it had reached.
-/

namespace Bolt.BufferManager

open Lib

inductive MemoryTag where
  | unknown
  | hashBuild
  | aggregation
  | sort
  | window
  | exchange
  | testing
  | count
  deriving DecidableEq, Repr

inductive BlockMemoryState where
  | inMemory
  | spilled
  | prefetching
  | spilling
  deriving DecidableEq, Repr

inductive CompressionKind where
  | none
  | lz4Block
  | zstdFrame
  | snappyRaw
  | openZlFrame
  deriving DecidableEq, Repr

inductive BmError where
  | unknownBlock
  | allocationSizeZero
  | residentWithoutPayload
  | pinWhileSpilling (blockId : ℕ)
  | readOfUnspilledBlock
  | readWithoutSegment
  | readSubmissionFailed
  | noReadFuture
  | readFutureConsumed
  | spillReadFailed (blockId : ℕ)
  | recordHeaderTooSmall (size : ℕ)
  | invalidMagic (magic : ℕ)
  | unsupportedVersion (version : ℕ)
  | headerSizeTooSmall (headerSize : ℕ)
  | rawSizeMismatch (rawSize expected : ℕ)
  | unsupportedCompressionKind (kind : ℕ)
  | payloadExceedsRecord (headerSize storedSize recordSize : ℕ)
  | uncompressedSizeMismatch (storedSize rawSize : ℕ)
  | payloadAllocationFailed
  | decompressionFailed
  | unpinUnderflow (blockId : ℕ)
  | markDirtyNotResident (blockId : ℕ)
  | noWriteWindow
  | writeSubmissionFailed
  | spillWriteFailed (blockId : ℕ)
  deriving DecidableEq, Repr

abbrev Result (σ α : Type) := Except BmError α × σ

/-- Goes on with the value, unless the first operation threw. -/
def Result.andThen {σ α β : Type} (result : Result σ α) (next : α → σ → Result σ β) : Result σ β :=
  match result.1 with
  | .ok a => next a result.2
  | .error e => (.error e, result.2)

namespace CompressionKind

def code : CompressionKind → ℕ
  | none => 0
  | lz4Block => 1
  | zstdFrame => 2
  | snappyRaw => 3
  | openZlFrame => 4

def ofCode : ℕ → Option CompressionKind
  | 0 => some none
  | 1 => some lz4Block
  | 2 => some zstdFrame
  | 3 => some snappyRaw
  | 4 => some openZlFrame
  | _ => Option.none

end CompressionKind

/-- The compression libraries. Decompression writes into a buffer of the given size and
restores what was compressed. -/
structure SpillCodec where
  compress : CompressionKind → List UInt8 → List UInt8
  decompress : CompressionKind → List UInt8 → ℕ → Option (List UInt8)
  length_decompress : ∀ kind stored rawSize raw, decompress kind stored rawSize = some raw → raw.length = rawSize
  decompress_compress : ∀ kind raw, decompress kind (compress kind raw) raw.length = some raw

structure SpillRecordHeader where
  magic : ℕ
  version : ℕ
  headerSize : ℕ
  compressionKind : ℕ
  rawSize : ℕ
  storedSize : ℕ
  deriving DecidableEq, Repr

def kSpillRecordMagic : ℕ := 0x424d5350
def kSpillRecordVersion : ℕ := 1

def spillRecordHeaderSize : ℕ := 32

/-- A record as it is read: a header, unless there are too few bytes for one, and the
bytes behind it. -/
structure SpillRecord where
  header : Option SpillRecordHeader
  body : List UInt8
  deriving DecidableEq, Repr

/-- The record of a payload under the selected compression. -/
def buildSpillRecord (codec : SpillCodec) (selectedKind : CompressionKind) (payload : List UInt8) : SpillRecord :=
  let stored := if selectedKind = .none then payload else codec.compress selectedKind payload
  { header := some
      { magic := kSpillRecordMagic
        version := kSpillRecordVersion
        headerSize := spillRecordHeaderSize
        compressionKind := selectedKind.code
        rawSize := payload.length
        storedSize := stored.length }
    body := stored }

def decodeSpillRecordHeader (header : SpillRecordHeader) (size expectedRawSize : ℕ) : Except BmError CompressionKind :=
  if header.magic ≠ kSpillRecordMagic then .error (.invalidMagic header.magic)
  else if header.version ≠ kSpillRecordVersion then .error (.unsupportedVersion header.version)
  else if header.headerSize < spillRecordHeaderSize then .error (.headerSizeTooSmall header.headerSize)
  else if header.rawSize ≠ expectedRawSize then .error (.rawSizeMismatch header.rawSize expectedRawSize)
  else
    match CompressionKind.ofCode header.compressionKind with
    | none => .error (.unsupportedCompressionKind header.compressionKind)
    | some kind =>
      if size < header.headerSize ∨ size - header.headerSize < header.storedSize then
        .error (.payloadExceedsRecord header.headerSize header.storedSize size)
      else .ok kind

/-- The part of `DecodeSpillRecord` in front of the allocation: the kind and the stored
payload. -/
def storedPayload (record : SpillRecord) (expectedRawSize : ℕ) : Except BmError (CompressionKind × List UInt8) :=
  match record.header with
  | none => .error (.recordHeaderTooSmall record.body.length)
  | some header =>
    match decodeSpillRecordHeader header (spillRecordHeaderSize + record.body.length) expectedRawSize with
    | .error e => .error e
    | .ok kind =>
      if kind = .none ∧ header.storedSize ≠ header.rawSize then
        .error (.uncompressedSizeMismatch header.storedSize header.rawSize)
      else .ok (kind, (record.body.drop (header.headerSize - spillRecordHeaderSize)).take header.storedSize)

inductive DecodeFault where
  | allocation
  | decompression
  deriving DecidableEq, Repr

/-- The part of `DecodeSpillRecord` from the allocation on. -/
def decodePayload (codec : SpillCodec) (kind : CompressionKind) (stored : List UInt8) (rawSize : ℕ)
    (fault : Option DecodeFault) : Except BmError (List UInt8) :=
  if fault = some .allocation then .error .payloadAllocationFailed
  else if kind = .none then .ok stored
  else if fault = some .decompression then .error .decompressionFailed
  else
    match codec.decompress kind stored rawSize with
    | none => .error .decompressionFailed
    | some raw => .ok raw

inductive WriteOutcome where
  | submissionThrows
  | ioError
  | written (storedKind : CompressionKind)
  deriving DecidableEq, Repr

/-- A call of `Reclaim`, with the outcome of the write of each block. -/
structure Reclaiming where
  targetBytes : ℕ
  writes : ℕ → WriteOutcome

/-- How a submitted read ends. The allocation for a decoded payload can make the memory
arbitrator call `Reclaim` first, and then throw. -/
inductive RawRead where
  | ioError
  | bytes (record : SpillRecord) (reclaims : List Reclaiming) (fault : Option DecodeFault)

/-- A future holds its result until `get` has been called. -/
inductive SpillReadFuture where
  | pending (raw : RawRead)
  | consumed

/-- The memory of a block with its state and its place on disk. -/
structure BlockMemory where
  id : ℕ
  size : ℕ
  tag : MemoryTag
  state : BlockMemoryState := .inMemory
  pinCount : ℕ := 0
  dirty : Bool := true
  evictionSequence : ℕ := 0
  payload : Option (List UInt8) := none
  segment : Option SpillRecord := none
  prefetchFuture : Option SpillReadFuture := none

namespace BlockMemory

def pinResident (memory : BlockMemory) : BlockMemory :=
  { memory with pinCount := memory.pinCount + 1, evictionSequence := memory.evictionSequence + 1 }

def unpin (memory : BlockMemory) : BlockMemory :=
  if memory.pinCount - 1 = 0 ∧ memory.state = .inMemory then
    { memory with pinCount := memory.pinCount - 1, evictionSequence := memory.evictionSequence + 1 }
  else { memory with pinCount := memory.pinCount - 1 }

def submitRead (memory : BlockMemory) (raw : RawRead) : BlockMemory :=
  { memory with prefetchFuture := some (.pending raw), state := .prefetching }

def markReadFailed (memory : BlockMemory) : BlockMemory :=
  { memory with state := .spilled }

def completeReadKeepBacking (memory : BlockMemory) (payload : List UInt8) : BlockMemory :=
  { memory with
    payload := some payload
    state := .inMemory
    pinCount := 1
    dirty := false
    evictionSequence := memory.evictionSequence + 1 }

def beginSpill (memory : BlockMemory) : BlockMemory :=
  { memory with payload := none, state := .spilling }

def canDiscardResidentWithBacking (memory : BlockMemory) : Bool :=
  memory.state = .inMemory ∧ memory.pinCount = 0 ∧ memory.payload.isSome ∧ memory.segment.isSome ∧ !memory.dirty

def discardResidentWithBacking (memory : BlockMemory) : BlockMemory :=
  { memory with payload := none, state := .spilled, evictionSequence := memory.evictionSequence + 1 }

def completeSpill (memory : BlockMemory) (segment : SpillRecord) : BlockMemory :=
  { memory with
    segment := some segment
    state := .spilled
    dirty := false
    evictionSequence := memory.evictionSequence + 1 }

end BlockMemory

/-- The counters that follow the blocks. `resident` is kept for tags only. -/
inductive Counter where
  | liveBlocks
  | pinnedResident
  | unpinnedResident
  | spilled
  | prefetching
  | spilling
  | resident
  deriving DecidableEq, Repr

def mutableTagStats : MemoryTag → MemoryTag
  | .count => .unknown
  | tag => tag

/-- A counter that a block of this tag is counted in: the manager's own (`none`) or that
of the tag. -/
def InScope (tag : MemoryTag) (scope : Option MemoryTag) (counter : Counter) : Prop :=
  scope = some (mutableTagStats tag) ∨ scope = none ∧ counter ≠ .resident

instance (tag : MemoryTag) (scope : Option MemoryTag) (counter : Counter) : Decidable (InScope tag scope counter) :=
  inferInstanceAs (Decidable (_ ∨ _))

/-- The counters, and whether `SubtractOrSaturate` has ever had to clamp one. -/
structure Stats where
  value : Option MemoryTag → Counter → ℕ
  clamped : Bool

namespace Stats

def add (stats : Stats) (memory : BlockMemory) (counter : Counter) (delta : ℕ) : Stats :=
  { stats with
    value := fun scope c =>
      if c = counter ∧ InScope memory.tag scope c then stats.value scope c + delta else stats.value scope c }

def subtractOrSaturate (stats : Stats) (memory : BlockMemory) (counter : Counter) (delta : ℕ) : Stats where
  value := fun scope c =>
    if c = counter ∧ InScope memory.tag scope c then stats.value scope c - delta else stats.value scope c
  clamped := stats.clamped || decide (stats.value (some (mutableTagStats memory.tag)) counter < delta) ||
    (decide (counter ≠ .resident) && decide (stats.value none counter < delta))

def recordAllocate (stats : Stats) (memory : BlockMemory) : Stats :=
  ((stats.add memory .liveBlocks 1).add memory .pinnedResident memory.size).add memory .resident memory.size

def onResidentPinned (stats : Stats) (memory : BlockMemory) : Stats :=
  if memory.pinCount ≠ 0 then stats
  else (stats.subtractOrSaturate memory .unpinnedResident memory.size).add memory .pinnedResident memory.size

def onResidentUnpinned (stats : Stats) (memory : BlockMemory) : Stats :=
  (stats.subtractOrSaturate memory .pinnedResident memory.size).add memory .unpinnedResident memory.size

def onReadSubmitted (stats : Stats) (memory : BlockMemory) : Stats :=
  stats.add memory .prefetching memory.size

def onReadFutureConsumed (stats : Stats) (memory : BlockMemory) : Stats :=
  stats.subtractOrSaturate memory .prefetching memory.size

def onReadCompleted (stats : Stats) (memory : BlockMemory) : Stats :=
  ((stats.subtractOrSaturate memory .spilled memory.size).add memory .pinnedResident memory.size).add
    memory .resident memory.size

def onSpillStarted (stats : Stats) (memory : BlockMemory) : Stats :=
  ((stats.subtractOrSaturate memory .unpinnedResident memory.size).add memory .spilling memory.size).subtractOrSaturate
    memory .resident memory.size

def onSpillCompleted (stats : Stats) (memory : BlockMemory) : Stats :=
  (stats.subtractOrSaturate memory .spilling memory.size).add memory .spilled memory.size

def onCleanResidentDiscarded (stats : Stats) (memory : BlockMemory) : Stats :=
  ((stats.subtractOrSaturate memory .unpinnedResident memory.size).add memory .spilled memory.size).subtractOrSaturate
    memory .resident memory.size

def onBlockMemoryDestroy (stats : Stats) (memory : BlockMemory) : Stats :=
  let stats := stats.subtractOrSaturate memory .liveBlocks 1
  match memory.state with
  | .inMemory =>
    (if memory.pinCount = 0 then stats.subtractOrSaturate memory .unpinnedResident memory.size
      else stats.subtractOrSaturate memory .pinnedResident memory.size).subtractOrSaturate memory .resident memory.size
  | .spilled => stats.subtractOrSaturate memory .spilled memory.size
  | .prefetching =>
    (stats.subtractOrSaturate memory .spilled memory.size).subtractOrSaturate memory .prefetching memory.size
  | .spilling => stats.subtractOrSaturate memory .spilling memory.size

end Stats

structure PinEvents where
  pinCount : ℕ := 0
  tagPinCount : MemoryTag → ℕ := fun _ => 0
  prefetchIoFailures : ℕ := 0
  readIoFailures : ℕ := 0

def PinEvents.recordPinRequest (events : PinEvents) (tag : MemoryTag) : PinEvents :=
  { events with
    pinCount := events.pinCount + 1
    tagPinCount := fun t => if t = mutableTagStats tag then events.tagPinCount t + 1 else events.tagPinCount t }

def PinEvents.recordReadIoFailure (events : PinEvents) : PinEvents :=
  { events with
    prefetchIoFailures := events.prefetchIoFailures + 1
    readIoFailures := events.readIoFailures + 1 }

/-- A weak pointer to a block with the generation of the block when it was queued. -/
structure EvictionEntry where
  block : ℕ
  sequence : ℕ
  deriving DecidableEq, Repr

/-- The blocks, the queue of those that may be spilled, and the counters. -/
structure Manager where
  blocks : List BlockMemory
  nextBlockId : ℕ
  evictionQueue : List EvictionEntry
  staleEntries : ℕ
  stats : Stats
  events : PinEvents

namespace Manager

def create : Manager where
  blocks := []
  nextBlockId := 1
  evictionQueue := []
  staleEntries := 0
  stats := { value := fun _ _ => 0, clamped := false }
  events := {}

def lookup (manager : Manager) (blockId : ℕ) : Option BlockMemory :=
  Keyed.lookup BlockMemory.id manager.blocks blockId

def update (manager : Manager) (memory : BlockMemory) (stats : Stats) : Manager :=
  { manager with blocks := Keyed.replace BlockMemory.id manager.blocks memory, stats := stats }

end Manager

/-! ## The eviction queue -/

/-- What the test of the eviction queue and that of the handle provider share. -/
def spillable (memory : BlockMemory) : Bool :=
  memory.pinCount = 0 ∧ memory.state = .inMemory ∧ memory.payload.isSome

def isEvictable (block : Option BlockMemory) (sequence : ℕ) : Bool :=
  match block with
  | none => false
  | some memory => memory.evictionSequence = sequence ∧ spillable memory

/-- The first evictable block, with the entries behind it and the count of stale entries. -/
def popEvictable (blocks : List BlockMemory) : List EvictionEntry → ℕ → Option ℕ × List EvictionEntry × ℕ
  | [], stale => (none, [], stale)
  | entry :: queue, stale =>
    if isEvictable (Keyed.lookup BlockMemory.id blocks entry.block) entry.sequence then (some entry.block, queue, stale)
    else popEvictable blocks queue (stale + 1)

/-- Where candidates come from: the eviction queue, or the handles that are left of a
list. -/
inductive SpillCandidates where
  | evictionQueue
  | handles (blocks : List ℕ)

structure PendingWrite where
  block : ℕ
  payload : List UInt8
  write : WriteOutcome

/-- The variables of `SpillWriteDriver::Spill` and the window of pending writes; `taken`
lists the candidates it has taken, in order. -/
structure SpillRun where
  manager : Manager
  candidates : SpillCandidates
  pending : List PendingWrite
  submitted : ℕ
  reclaimed : ℕ
  noMoreCandidates : Bool
  taken : List BlockMemory

def nextHandle (manager : Manager) : List ℕ → Option ℕ × List ℕ
  | [] => (none, [])
  | blockId :: rest =>
    match manager.lookup blockId with
    | none => nextHandle manager rest
    | some memory => if spillable memory then (some blockId, rest) else nextHandle manager rest

namespace SpillRun

def nextCandidate (run : SpillRun) : Option ℕ × SpillRun :=
  match run.candidates with
  | .evictionQueue =>
    let popped := popEvictable run.manager.blocks run.manager.evictionQueue run.manager.staleEntries
    (popped.1,
      { run with manager := { run.manager with evictionQueue := popped.2.1, staleEntries := popped.2.2 } })
  | .handles blocks =>
    let next := nextHandle run.manager blocks
    (next.1, { run with candidates := .handles next.2 })

def submit (writes : ℕ → WriteOutcome) (memory : BlockMemory) (run : SpillRun) : Result SpillRun Unit :=
  match memory.payload with
  | none => (.error .residentWithoutPayload, run)
  | some payload =>
    let manager := run.manager.update memory.beginSpill (run.manager.stats.onSpillStarted memory.beginSpill)
    match writes memory.id with
    | .submissionThrows => (.error .writeSubmissionFailed, { run with manager := manager })
    | write =>
      (.ok (),
        { run with
          manager := manager
          pending := run.pending ++ [⟨memory.id, payload, write⟩]
          submitted := run.submitted + memory.size
          taken := run.taken ++ [memory] })

/-- The body of `submitMore` for one candidate. -/
def takeCandidate (writes : ℕ → WriteOutcome) (blockId : ℕ) (run : SpillRun) : Result SpillRun Unit :=
  match run.manager.lookup blockId with
  | none => (.error .unknownBlock, run)
  | some memory =>
    if memory.canDiscardResidentWithBacking then
      (.ok (),
        { run with
          manager := run.manager.update memory.discardResidentWithBacking
            (run.manager.stats.onCleanResidentDiscarded memory)
          reclaimed := run.reclaimed + memory.size
          submitted := run.submitted + memory.size
          taken := run.taken ++ [memory] })
    else run.submit writes memory

/-- The condition of the loop in `submitMore`. -/
def MaySubmit (maxInflight targetBytes : ℕ) (run : SpillRun) : Prop :=
  run.pending.length < maxInflight ∧ (targetBytes = 0 ∨ run.submitted < targetBytes) ∧ run.noMoreCandidates = false

instance (maxInflight targetBytes : ℕ) (run : SpillRun) : Decidable (run.MaySubmit maxInflight targetBytes) :=
  inferInstanceAs (Decidable (_ ∧ _))

/-- The loop of `submitMore`. Each pass takes an entry off the queue or off the handles. -/
def submitLoop (maxInflight targetBytes : ℕ) (writes : ℕ → WriteOutcome) : ℕ → SpillRun → Result SpillRun Unit
  | 0, run => (.ok (), run)
  | fuel + 1, run =>
    if run.MaySubmit maxInflight targetBytes then
      match run.nextCandidate.1 with
      | none => (.ok (), { run.nextCandidate.2 with noMoreCandidates := true })
      | some blockId =>
        Result.andThen (run.nextCandidate.2.takeCandidate writes blockId) fun _ run =>
          submitLoop maxInflight targetBytes writes fuel run
    else (.ok (), run)

/-- The entries that candidates can still come from. -/
def remaining (run : SpillRun) : ℕ :=
  match run.candidates with
  | .evictionQueue => run.manager.evictionQueue.length
  | .handles blocks => blocks.length

def submitMore (maxInflight targetBytes : ℕ) (writes : ℕ → WriteOutcome) (run : SpillRun) : Result SpillRun Unit :=
  submitLoop maxInflight targetBytes writes (run.remaining + 1) run

/-- `ReclaimWriteWindow::HarvestNext` for the oldest pending write, with the check of its
caller. -/
def harvestNext (codec : SpillCodec) (write : PendingWrite) (rest : List PendingWrite) (run : SpillRun) :
    Result SpillRun Unit :=
  match run.manager.lookup write.block with
  | none => (.error .unknownBlock, { run with pending := rest })
  | some memory =>
    match write.write with
    | .written kind =>
      (.ok (),
        { run with
          manager := run.manager.update (memory.completeSpill (buildSpillRecord codec kind write.payload))
            (run.manager.stats.onSpillCompleted memory)
          pending := rest
          reclaimed := run.reclaimed + memory.size })
    | _ => (.error (.spillWriteFailed memory.id), { run with pending := rest })

def drain (codec : SpillCodec) (maxInflight targetBytes : ℕ) (writes : ℕ → WriteOutcome) :
    ℕ → SpillRun → Result SpillRun Unit
  | 0, run => (.ok (), run)
  | fuel + 1, run =>
    match run.pending with
    | [] => (.ok (), run)
    | write :: rest =>
      Result.andThen (run.harvestNext codec write rest) fun _ run =>
        if targetBytes = 0 ∨ run.reclaimed < targetBytes then
          Result.andThen (run.submitMore maxInflight targetBytes writes) fun _ run =>
            drain codec maxInflight targetBytes writes fuel run
        else drain codec maxInflight targetBytes writes fuel run

end SpillRun

/-- `SpillWriteDriver::Spill`; the bytes it returns are `reclaimed` of the last state. -/
def spill (codec : SpillCodec) (maxInflight targetBytes : ℕ) (writes : ℕ → WriteOutcome) (candidates : SpillCandidates)
    (manager : Manager) : Result SpillRun Unit :=
  let run : SpillRun :=
    { manager := manager, candidates := candidates, pending := [], submitted := 0, reclaimed := 0
      noMoreCandidates := false, taken := [] }
  if maxInflight = 0 then (.error .noWriteWindow, run)
  else
    Result.andThen (run.submitMore maxInflight targetBytes writes) fun _ run =>
      run.drain codec maxInflight targetBytes writes (run.remaining + run.pending.length)

/-- The part of `BufferManagerConfig` that is used here, with the compression libraries. -/
structure Config where
  codec : SpillCodec
  maxReclaimWriteInflight : ℕ

namespace Manager

variable (config : Config)

def reclaimRun (reclaiming : Reclaiming) (manager : Manager) : Result SpillRun Unit :=
  spill config.codec config.maxReclaimWriteInflight reclaiming.targetBytes reclaiming.writes .evictionQueue manager

/-- Spills blocks until enough bytes are free. -/
def reclaim (reclaiming : Reclaiming) (manager : Manager) : Result Manager ℕ :=
  let result := manager.reclaimRun config reclaiming
  (result.1.map fun _ => result.2.reclaimed, result.2.manager)

def spillBlocks (blocks : List ℕ) (writes : ℕ → WriteOutcome) (manager : Manager) : Result Manager Unit :=
  let result := spill config.codec config.maxReclaimWriteInflight 0 writes (.handles blocks) manager
  (result.1, result.2.manager)

def discardCleanResidentBlocks : List ℕ → Manager → Manager
  | [], manager => manager
  | blockId :: rest, manager =>
    match manager.lookup blockId with
    | none => discardCleanResidentBlocks rest manager
    | some memory =>
      if memory.canDiscardResidentWithBacking then
        discardCleanResidentBlocks rest
          (manager.update memory.discardResidentWithBacking (manager.stats.onCleanResidentDiscarded memory))
      else discardCleanResidentBlocks rest manager

/-! ## Allocation, pins and reads -/

/-- `AllocateOne`; the new payload holds the given bytes. -/
def allocate (size : ℕ) (tag : MemoryTag) (fill : ℕ → UInt8) (manager : Manager) : Result Manager ℕ :=
  if size = 0 then (.error .allocationSizeZero, manager)
  else
    let memory : BlockMemory :=
      { id := manager.nextBlockId, size := size, tag := tag, pinCount := 1, payload := some ((List.range size).map fill) }
    (.ok memory.id,
      { manager with
        blocks := manager.blocks ++ [memory]
        nextBlockId := manager.nextBlockId + 1
        stats := manager.stats.recordAllocate memory })

/-- `SubmitRead`; `none` is a submission that throws. -/
def submitRead (memory : BlockMemory) (read : Option RawRead) (manager : Manager) : Result Manager Unit :=
  if memory.state ≠ .spilled then (.error .readOfUnspilledBlock, manager)
  else if memory.segment.isNone then (.error .readWithoutSegment, manager)
  else
    match read with
    | none => (.error .readSubmissionFailed, manager)
    | some raw => (.ok (), manager.update (memory.submitRead raw) (manager.stats.onReadSubmitted memory))

/-- `SpillReadFuture::get`: the payload, or `none` for a failed IO result. -/
def futureGet (raw : RawRead) (expectedRawSize : ℕ) (manager : Manager) : Result Manager (Option (List UInt8)) :=
  match raw with
  | .ioError => (.ok none, manager)
  | .bytes record reclaims fault =>
    match storedPayload record expectedRawSize with
    | .error e => (.error e, manager)
    | .ok stored =>
      ((decodePayload config.codec stored.1 stored.2 expectedRawSize fault).map some,
        reclaims.foldl (fun manager reclaiming => (manager.reclaim config reclaiming).2) manager)

/-- `PinPrefetching` behind `ConsumePrefetch`. -/
def finishRead (blockId : ℕ) (read : Option (List UInt8)) (manager : Manager) : Result Manager Unit :=
  match manager.lookup blockId with
  | none => (.error .unknownBlock, manager)
  | some memory =>
    let stats := manager.stats.onReadFutureConsumed memory
    let memory := { memory with prefetchFuture := none }
    match read with
    | none =>
      (.error (.spillReadFailed blockId),
        { manager.update memory.markReadFailed stats with events := manager.events.recordReadIoFailure })
    | some payload =>
      if memory.segment.isNone then (.error .readWithoutSegment, manager.update memory (stats.onReadCompleted memory))
      else (.ok (), manager.update (memory.completeReadKeepBacking payload) (stats.onReadCompleted memory))

/-- `PinPrefetching`. When `get` throws, the future stays in the block, without its result. -/
def pinPrefetching (blockId : ℕ) (manager : Manager) : Result Manager Unit :=
  match manager.lookup blockId with
  | none => (.error .unknownBlock, manager)
  | some memory =>
    match memory.prefetchFuture with
    | none => (.error .noReadFuture, manager)
    | some .consumed => (.error .readFutureConsumed, manager)
    | some (.pending raw) =>
      Result.andThen
        ((manager.update { memory with prefetchFuture := some .consumed } manager.stats).futureGet config raw memory.size)
        fun read manager => manager.finishRead blockId read

def pinInMemory (memory : BlockMemory) (manager : Manager) : Result Manager Unit :=
  if memory.payload.isNone then (.error .residentWithoutPayload, manager)
  else (.ok (), manager.update memory.pinResident (manager.stats.onResidentPinned memory))

def pinSpilled (memory : BlockMemory) (read : Option RawRead) (manager : Manager) : Result Manager Unit :=
  Result.andThen (manager.submitRead memory read) fun _ manager => manager.pinPrefetching config memory.id

def pin (blockId : ℕ) (reads : ℕ → Option RawRead) (manager : Manager) : Result Manager Unit :=
  match manager.lookup blockId with
  | none => (.error .unknownBlock, manager)
  | some memory =>
    let manager := { manager with events := manager.events.recordPinRequest memory.tag }
    match memory.state with
    | .inMemory => manager.pinInMemory memory
    | .spilled => manager.pinSpilled config memory (reads blockId)
    | .prefetching => manager.pinPrefetching config blockId
    | .spilling => (.error (.pinWhileSpilling blockId), manager)

def unpin (blockId : ℕ) (manager : Manager) : Result Manager Unit :=
  match manager.lookup blockId with
  | none => (.error .unknownBlock, manager)
  | some memory =>
    if memory.pinCount = 0 then (.error (.unpinUnderflow blockId), manager)
    else if memory.unpin.pinCount = 0 ∧ memory.unpin.state = .inMemory then
      (.ok (),
        { manager.update memory.unpin (manager.stats.onResidentUnpinned memory.unpin) with
          evictionQueue := manager.evictionQueue ++ [⟨blockId, memory.unpin.evictionSequence⟩] })
    else (.ok (), manager.update memory.unpin manager.stats)

def prefetch (reads : ℕ → Option RawRead) : List ℕ → Manager → Result Manager Unit
  | [], manager => (.ok (), manager)
  | blockId :: rest, manager =>
    match manager.lookup blockId with
    | none => (.error .unknownBlock, manager)
    | some memory =>
      if memory.state = .spilled then
        Result.andThen (manager.submitRead memory (reads blockId)) fun _ manager => prefetch reads rest manager
      else prefetch reads rest manager

/-- The handles that go when `BatchPin` throws give back their pins. -/
def unpinAll : List ℕ → Manager → Manager
  | [], manager => manager
  | blockId :: rest, manager => unpinAll rest (manager.unpin blockId).2

/-- The second loop of `BatchPin`; `pinned` are the handles made so far. -/
def pinAll (reads : ℕ → Option RawRead) : List ℕ → List ℕ → Manager → Result Manager Unit
  | _, [], manager => (.ok (), manager)
  | pinned, blockId :: rest, manager =>
    match manager.pin config blockId reads with
    | (.ok _, manager) => pinAll reads (pinned ++ [blockId]) rest manager
    | (.error e, manager) => (.error e, manager.unpinAll pinned)

def batchPin (blocks : List ℕ) (reads : ℕ → Option RawRead) (manager : Manager) : Result Manager Unit :=
  Result.andThen (manager.prefetch reads blocks) fun _ manager => manager.pinAll config reads [] blocks

def markDirty (blockId : ℕ) (manager : Manager) : Result Manager Unit :=
  match manager.lookup blockId with
  | none => (.error .unknownBlock, manager)
  | some memory =>
    if memory.state ≠ .inMemory then (.error (.markDirtyNotResident blockId), manager)
    else (.ok (), manager.update { memory with dirty := true } manager.stats)

def writePayload (blockId : ℕ) (fill : ℕ → UInt8) (manager : Manager) : Manager :=
  match manager.lookup blockId with
  | none => manager
  | some memory =>
    if memory.pinCount = 0 ∨ memory.payload.isNone then manager
    else manager.update { memory with payload := some ((List.range memory.size).map fill) } manager.stats

def destroy (blockId : ℕ) (manager : Manager) : Manager :=
  match manager.lookup blockId with
  | none => manager
  | some memory =>
    { manager with
      blocks := Keyed.remove BlockMemory.id manager.blocks blockId
      stats := manager.stats.onBlockMemoryDestroy memory }

inductive Call where
  | allocate (size : ℕ) (tag : MemoryTag) (fill : ℕ → UInt8)
  | pin (blockId : ℕ) (reads : ℕ → Option RawRead)
  | batchPin (blocks : List ℕ) (reads : ℕ → Option RawRead)
  | prefetch (blocks : List ℕ) (reads : ℕ → Option RawRead)
  | unpin (blockId : ℕ)
  | markDirty (blockId : ℕ)
  | writePayload (blockId : ℕ) (fill : ℕ → UInt8)
  | spillBlocks (blocks : List ℕ) (writes : ℕ → WriteOutcome)
  | reclaim (reclaiming : Reclaiming)
  | discardCleanResidentBlocks (blocks : List ℕ)
  | destroy (blockId : ℕ)

def step (manager : Manager) : Call → Manager
  | .allocate size tag fill => (manager.allocate size tag fill).2
  | .pin blockId reads => (manager.pin config blockId reads).2
  | .batchPin blocks reads => (manager.batchPin config blocks reads).2
  | .prefetch blocks reads => (manager.prefetch reads blocks).2
  | .unpin blockId => (manager.unpin blockId).2
  | .markDirty blockId => (manager.markDirty blockId).2
  | .writePayload blockId fill => manager.writePayload blockId fill
  | .spillBlocks blocks writes => (manager.spillBlocks config blocks writes).2
  | .reclaim reclaiming => (manager.reclaim config reclaiming).2
  | .discardCleanResidentBlocks blocks => manager.discardCleanResidentBlocks blocks
  | .destroy blockId => manager.destroy blockId

end Manager

end Bolt.BufferManager
