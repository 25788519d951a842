import Bolt.Lib.Runs
import Mathlib.Data.Int.Notation

/-!
# The file segment allocator

`FileSegmentAllocatorImpl` hands out segments of spill files. A request that fits a
bucket gets one slot of a bucket file; a larger one gets a dedicated file. What the
operating system answers to the creation of a file is an input of an allocation. Removing
a file that the allocator created succeeds.
-/

namespace Bolt.FileSegments

inductive FileErrorCode where
  | ok
  | invalidConfig
  | invalidSize
  | invalidSegment
  | doubleFree
  | tooManyOpenFiles
  | ioError
  | shutdown
deriving DecidableEq

inductive FileSegmentKind where
  | bucket
  | dedicated
deriving DecidableEq

structure FileSegment where
  fd : ℤ := -1
  offset : ℕ := 0
  requestedSize : ℕ := 0
  allocatedSize : ℕ := 0
  kind : FileSegmentKind := .bucket
  id : ℕ := 0
deriving DecidableEq

structure FileAllocateResult where
  error : FileErrorCode := .ok
  nativeErrorCode : ℤ := 0
  segment : FileSegment := {}
deriving DecidableEq

structure FileFreeResult where
  error : FileErrorCode := .ok
  nativeErrorCode : ℤ := 0
deriving DecidableEq

structure FileSegmentAllocatorConfig where
  directory : String
  bucketSizes : List ℤ
  fileSizeLimitBytes : ℤ
  maxOpenFilesPerBucket : ℕ

def isFileSegmentAligned (value : ℤ) : Bool := decide (0 < value) && value % (4 * 1024) == 0

/-- The loop of `ValidateFileSegmentAllocatorConfig` over the bucket sizes. -/
def validBucketSizes (previous : ℤ) : List ℤ → Bool
  | [] => true
  | size :: sizes => isFileSegmentAligned size && decide (previous < size) && validBucketSizes size sizes

def validateFileSegmentAllocatorConfig (config : FileSegmentAllocatorConfig) : FileErrorCode :=
  if config.directory.isEmpty || config.bucketSizes.isEmpty || config.fileSizeLimitBytes ≤ 0 ||
      config.maxOpenFilesPerBucket == 0 then .invalidConfig
  else if !isFileSegmentAligned config.fileSizeLimitBytes then .invalidConfig
  else if !validBucketSizes 0 config.bucketSizes then .invalidConfig
  else if config.fileSizeLimitBytes < config.bucketSizes.getLastD 0 then .invalidConfig
  else .ok

structure SegmentRecord where
  segment : FileSegment := {}
  bucketIndex : ℕ := 0
  fileIndex : ℕ := 0
deriving DecidableEq

structure FileAllocation where
  result : FileAllocateResult := {}
  record : SegmentRecord := {}
deriving DecidableEq

structure SegmentRegistry where
  nextSegmentId : ℕ := 1
  records : List SegmentRecord := []

namespace SegmentRegistry

/-- `Register`: an id that is taken keeps its record. -/
def register (registry : SegmentRegistry) (record : SegmentRecord) : SegmentRegistry :=
  if registry.records.any (·.segment.id == record.segment.id) then registry
  else { registry with records := record :: registry.records }

/-- `Take`: `none` is `kDoubleFree`. -/
def take (registry : SegmentRegistry) (segmentId : ℕ) : Option (SegmentRecord × SegmentRegistry) :=
  match registry.records.find? (·.segment.id == segmentId) with
  | none => none
  | some record =>
    some (record, { registry with records := registry.records.filter (·.segment.id != segmentId) })

end SegmentRegistry

/-- `BucketPlacer::BucketFile`. The head of the free offsets is the back of the vector. -/
structure BucketFile where
  fileIndex : ℕ
  fd : ℤ
  nextOffset : ℕ := 0
  activeSegments : ℕ := 0
  freeSegmentOffsets : List ℕ := []
deriving DecidableEq

/-- The files of one slot size. -/
structure BucketPlacer where
  bucketSize : ℕ
  fileSizeLimitBytes : ℕ
  maxOpenFiles : ℕ
  nextFileIndex : ℕ := 0
  files : List BucketFile := []

namespace BucketPlacer

def findReusableFile (placer : BucketPlacer) : Option BucketFile :=
  placer.files.find? fun file =>
    !file.freeSegmentOffsets.isEmpty || decide (file.nextOffset + placer.bucketSize ≤ placer.fileSizeLimitBytes)

def findFileByIndex (placer : BucketPlacer) (fileIndex : ℕ) : Option BucketFile :=
  placer.files.find? (·.fileIndex == fileIndex)

/-- Writes back the file that was looked up. -/
def updateFile (placer : BucketPlacer) (file : BucketFile) : BucketPlacer :=
  { placer with files := placer.files.map fun f => if f.fileIndex = file.fileIndex then file else f }

/-- The slot that an allocation takes from a file: the last one freed, or the next one. -/
def takeSlot (bucketSize : ℕ) (file : BucketFile) : ℕ × BucketFile :=
  match file.freeSegmentOffsets with
  | offset :: rest =>
    (offset, { file with freeSegmentOffsets := rest, activeSegments := file.activeSegments + 1 })
  | [] =>
    (file.nextOffset,
      { file with nextOffset := file.nextOffset + bucketSize, activeSegments := file.activeSegments + 1 })

/-- `CreateFile`: the file index is used up also if the file cannot be created. -/
def createFile (placer : BucketPlacer) (opened : Except ℤ ℤ) : Except ℤ BucketFile × BucketPlacer :=
  let fileIndex := placer.nextFileIndex
  let placer := { placer with nextFileIndex := placer.nextFileIndex + 1 }
  match opened with
  | .error errno => (.error errno, placer)
  | .ok fd =>
    let file : BucketFile := { fileIndex := fileIndex, fd := fd }
    (.ok file, { placer with files := placer.files ++ [file] })

def place (placer : BucketPlacer) (file : BucketFile) (requestedSize : ℤ) (segmentId : ℕ) :
    FileAllocation × BucketPlacer :=
  let slot := takeSlot placer.bucketSize file
  let segment : FileSegment :=
    { fd := file.fd, offset := slot.1, requestedSize := requestedSize.toNat, allocatedSize := placer.bucketSize,
      kind := .bucket, id := segmentId }
  ({ result := { segment := segment }, record := { segment := segment, fileIndex := file.fileIndex } },
    placer.updateFile slot.2)

def allocate (placer : BucketPlacer) (requestedSize : ℤ) (segmentId : ℕ) (opened : Except ℤ ℤ) :
    FileAllocation × BucketPlacer :=
  match placer.findReusableFile with
  | some file => placer.place file requestedSize segmentId
  | none =>
    if placer.maxOpenFiles ≤ placer.files.length then
      ({ result := { error := .tooManyOpenFiles } }, placer)
    else
      match placer.createFile opened with
      | (.error errno, placer) => ({ result := { error := .ioError, nativeErrorCode := errno } }, placer)
      | (.ok file, placer) => placer.place file requestedSize segmentId

/-- `Free`, with `DeleteFile` for a file without active segments. -/
def free (placer : BucketPlacer) (record : SegmentRecord) : FileFreeResult × BucketPlacer :=
  match placer.findFileByIndex record.fileIndex with
  | none => ({ error := .invalidSegment }, placer)
  | some file =>
    if file.activeSegments = 0 then ({ error := .invalidSegment }, placer)
    else
      let freed := { file with freeSegmentOffsets := record.segment.offset :: file.freeSegmentOffsets,
                               activeSegments := file.activeSegments - 1 }
      if freed.activeSegments = 0 then
        ({}, { placer with files := placer.files.filter (·.fileIndex != record.fileIndex) })
      else
        ({}, placer.updateFile freed)

end BucketPlacer

structure DedicatedPlacer where
  files : List (ℕ × ℤ) := []

namespace DedicatedPlacer

def allocate (placer : DedicatedPlacer) (requestedSize : ℤ) (segmentId : ℕ) (opened : Except ℤ ℤ) :
    FileAllocation × DedicatedPlacer :=
  match opened with
  | .error errno => ({ result := { error := .ioError, nativeErrorCode := errno } }, placer)
  | .ok fd =>
    let segment : FileSegment :=
      { fd := fd, offset := 0, requestedSize := requestedSize.toNat, allocatedSize := requestedSize.toNat,
        kind := .dedicated, id := segmentId }
    ({ result := { segment := segment }, record := { segment := segment } },
      if placer.files.any (·.1 == segmentId) then placer else { files := (segmentId, fd) :: placer.files })

def free (placer : DedicatedPlacer) (record : SegmentRecord) : FileFreeResult × DedicatedPlacer :=
  if placer.files.any (·.1 == record.segment.id) then
    ({}, { files := placer.files.filter (·.1 != record.segment.id) })
  else
    ({ error := .invalidSegment }, placer)

end DedicatedPlacer

/-- One placer for each bucket, one for dedicated files, and the registry. -/
structure FileSegmentAllocator where
  config : FileSegmentAllocatorConfig
  buckets : List BucketPlacer
  dedicatedPlacer : DedicatedPlacer := {}
  registry : SegmentRegistry := {}
  shutdown : Bool := false

namespace FileSegmentAllocator

def create (config : FileSegmentAllocatorConfig) : FileSegmentAllocator where
  config := config
  buckets := config.bucketSizes.map fun size =>
    { bucketSize := size.toNat, fileSizeLimitBytes := config.fileSizeLimitBytes.toNat,
      maxOpenFiles := config.maxOpenFilesPerBucket }

def allocateBucket (allocator : FileSegmentAllocator) (size : ℤ) (bucketIndex : ℕ) (opened : Except ℤ ℤ) :
    FileAllocation × FileSegmentAllocator :=
  let segmentId := allocator.registry.nextSegmentId
  let registry := { allocator.registry with nextSegmentId := segmentId + 1 }
  match allocator.buckets[bucketIndex]? with
  | none => ({ result := { error := .invalidConfig } }, { allocator with registry := registry })
  | some placer =>
    let placed := placer.allocate size segmentId opened
    let buckets := allocator.buckets.set bucketIndex placed.2
    if placed.1.result.error = .ok then
      let record := { placed.1.record with bucketIndex := bucketIndex }
      ({ placed.1 with record := record },
        { allocator with registry := registry.register record, buckets := buckets })
    else
      (placed.1, { allocator with registry := registry, buckets := buckets })

def allocateDedicated (allocator : FileSegmentAllocator) (size : ℤ) (opened : Except ℤ ℤ) :
    FileAllocation × FileSegmentAllocator :=
  let segmentId := allocator.registry.nextSegmentId
  let registry := { allocator.registry with nextSegmentId := segmentId + 1 }
  let placed := allocator.dedicatedPlacer.allocate size segmentId opened
  if placed.1.result.error = .ok then
    (placed.1, { allocator with registry := registry.register placed.1.record, dedicatedPlacer := placed.2 })
  else
    (placed.1, { allocator with registry := registry, dedicatedPlacer := placed.2 })

/-- `Allocate`. The caller sees the result; the record is what the registry keeps. -/
def allocate (allocator : FileSegmentAllocator) (size : ℤ) (opened : Except ℤ ℤ) :
    FileAllocation × FileSegmentAllocator :=
  if allocator.shutdown then ({ result := { error := .shutdown } }, allocator)
  else if size ≤ 0 then ({ result := { error := .invalidSize } }, allocator)
  else
    -- `std::lower_bound`: the first bucket that is not smaller.
    match allocator.config.bucketSizes.findIdx? (fun bucketSize => decide (size ≤ bucketSize)) with
    | none => allocator.allocateDedicated size opened
    | some bucketIndex => allocator.allocateBucket size bucketIndex opened

def free (allocator : FileSegmentAllocator) (segment : FileSegment) : FileFreeResult × FileSegmentAllocator :=
  match allocator.registry.take segment.id with
  | none => ({ error := .doubleFree }, allocator)
  | some (record, registry) =>
    let allocator := { allocator with registry := registry }
    match record.segment.kind with
    | .dedicated =>
      let freed := allocator.dedicatedPlacer.free record
      (freed.1, { allocator with dedicatedPlacer := freed.2 })
    | .bucket =>
      match allocator.buckets[record.bucketIndex]? with
      | none => ({ error := .invalidSegment }, allocator)
      | some placer =>
        let freed := placer.free record
        (freed.1, { allocator with buckets := allocator.buckets.set record.bucketIndex freed.2 })

end FileSegmentAllocator

inductive Call where
  | allocate (size : ℤ) (opened : Except ℤ ℤ)
  | free (segment : FileSegment)

inductive Answer where
  | allocated (allocation : FileAllocation)
  | freed (result : FileFreeResult)

def call (allocator : FileSegmentAllocator) : Call → Answer × FileSegmentAllocator
  | .allocate size opened =>
    let answer := allocator.allocate size opened
    (.allocated answer.1, answer.2)
  | .free segment =>
    let answer := allocator.free segment
    (.freed answer.1, answer.2)

end Bolt.FileSegments
