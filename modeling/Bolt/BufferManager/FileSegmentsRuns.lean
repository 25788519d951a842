import Bolt.BufferManager.FileSegmentsInvariant

/-!
# The live segments of every run

The invariant of the allocator ties its placers to the registry and to the history of
the calls. Every call keeps it, so it holds after every sequence of calls on an allocator
with a valid configuration.
-/

namespace Bolt.FileSegments

open Lib.Runs FileSegmentAllocator List SegmentRecord

theorem validBucketSizes_bounds (sizes : List ℤ) : ∀ previous, validBucketSizes previous sizes = true →
      previous ≤ sizes.getLastD previous ∧ ∀ size ∈ sizes, previous < size ∧ ∀ d, size ≤ sizes.getLastD d := by
  induction sizes with
  | nil => intro previous _; simp
  | cons head tail ih =>
    intro previous hvalid
    simp only [validBucketSizes, Bool.and_eq_true, decide_eq_true_eq] at hvalid
    obtain ⟨⟨_, hlt⟩, ht⟩ := hvalid
    obtain ⟨hl, hsi⟩ := ih head ht
    simp only [getLastD_cons, mem_cons]
    refine ⟨Int.le_trans (Int.le_of_lt hlt) hl, fun size hs => ?_⟩
    rcases hs with rfl | hs
    · exact ⟨hlt, fun _ => hl⟩
    · exact ⟨Int.lt_trans hlt (hsi size hs).1, fun _ => (hsi size hs).2 head⟩

theorem valid_bucketSize {config : FileSegmentAllocatorConfig}
    (hvalid : validateFileSegmentAllocatorConfig config = .ok) {size : ℤ} (hs : size ∈ config.bucketSizes) :
    0 < size ∧ size ≤ config.fileSizeLimitBytes := by
  simp only [validateFileSegmentAllocatorConfig] at hvalid
  split at hvalid
  · cases hvalid
  · split at hvalid
    · cases hvalid
    · split at hvalid
      · cases hvalid
      · rename_i hsi
        split at hvalid
        · cases hvalid
        · rename_i hli
          have hb := (validBucketSizes_bounds config.bucketSizes 0 (by simpa using hsi)).2 size hs
          have hl := hb.2 0
          exact ⟨hb.1, by omega⟩

/-- The answer to an allocation is about the segment that was asked for. -/
def AnswersRequest : Call × Answer → Prop
  | (.allocate size _, .allocated allocation) =>
    allocation.result.error = .ok →
      0 < size ∧ allocation.result.segment.requestedSize = size.toNat ∧
        allocation.record.segment = allocation.result.segment
  | (.free _, .freed _) => True
  | _ => False

structure PlacedAs (config : FileSegmentAllocatorConfig) (record : SegmentRecord) : Prop where
  bucket : record.segment.kind = .bucket →
    ∃ size, config.bucketSizes[record.bucketIndex]? = some size ∧ record.segment.allocatedSize = size.toNat ∧
      record.segment.requestedSize ≤ size.toNat
  dedicated : record.segment.kind = .dedicated →
    record.segment.offset = 0 ∧ record.segment.requestedSize = record.segment.allocatedSize

/-- Registry, placers and the answers so far agree. -/
structure AllocatorInvariant (config : FileSegmentAllocatorConfig) (history : List (Call × Answer))
    (allocator : FileSegmentAllocator) : Prop where
  config_eq : allocator.config = config
  registry : RegistryInvariant history allocator.registry
  length_eq : allocator.buckets.length = config.bucketSizes.length
  placers : ∀ (i : ℕ) (size : ℤ) (placer : BucketPlacer), config.bucketSizes[i]? = some size →
    allocator.buckets[i]? = some placer →
    PlacerInvariant size.toNat config.fileSizeLimitBytes.toNat (offsetsIn allocator.registry.records i)
      (offsetsIn (placements history) i) placer
  placed : ∀ record ∈ placements history, PlacedAs config record
  dedicatedFiles : ∀ id, (∃ file ∈ allocator.dedicatedPlacer.files, file.1 = id) ↔
    ∃ record ∈ allocator.registry.records, record.segment.kind = .dedicated ∧ record.segment.id = id
  answers : ∀ entry ∈ history, AnswersRequest entry

namespace AllocatorInvariant

variable {config : FileSegmentAllocatorConfig} {history : List (Call × Answer)} {allocator : FileSegmentAllocator}
variable {size : ℤ} {record : SegmentRecord} {segment : FileSegment}

theorem created (config : FileSegmentAllocatorConfig) : AllocatorInvariant config [] (create config) where
  config_eq := rfl
  registry := RegistryInvariant.created
  length_eq := by simp [create]
  placers := by
    intro i size placer hs hp
    simp only [create, getElem?_map, hs, Option.map_some, Option.some.injEq] at hp
    subst hp
    refine ⟨rfl, rfl, nodup_nil, fun _ _ => rfl, ?_, ?_, fun k => ?_⟩
    · simp
    · simp
    · simp [create, offsetsIn]
  placed := by simp [placements]
  dedicatedFiles := by simp [create]
  answers := by simp

theorem forall_append {P : Call × Answer → Prop} (h : ∀ entry ∈ history, P entry) {entry : Call × Answer}
    (hen : P entry) : ∀ e ∈ history ++ [entry], P e :=
  forall_mem_append.mpr ⟨h, forall_mem_singleton.mpr hen⟩

theorem setPlacer {i : ℕ} {placer placer' : BucketPlacer} {live handed : ℕ → ℕ → List ℕ}
    (live' handed' : ℕ → ℕ → List ℕ) {buckets : List BucketPlacer} (hsi : config.bucketSizes[i]? = some size)
    (hpl : buckets[i]? = some placer)
    (h : ∀ (j : ℕ) (s : ℤ) (p : BucketPlacer), config.bucketSizes[j]? = some s → buckets[j]? = some p →
      PlacerInvariant s.toNat config.fileSizeLimitBytes.toNat (live j) (handed j) p)
    (hn : PlacerInvariant size.toNat config.fileSizeLimitBytes.toNat (live' i) (handed' i) placer')
    (hl : ∀ j, j ≠ i → live' j = live j) (hh : ∀ j, j ≠ i → handed' j = handed j) :
    ∀ (j : ℕ) (s : ℤ) (p : BucketPlacer), config.bucketSizes[j]? = some s → (buckets.set i placer')[j]? = some p →
      PlacerInvariant s.toNat config.fileSizeLimitBytes.toNat (live' j) (handed' j) p := by
  intro j s p hs hp
  by_cases hj : j = i
  · subst hj
    obtain ⟨hlt, _⟩ := List.getElem?_eq_some_iff.mp hpl
    rw [getElem?_set_self hlt, Option.some.injEq] at hp
    rw [hsi, Option.some.injEq] at hs
    subst hp hs
    exact hn
  · rw [getElem?_set_ne (Ne.symm hj)] at hp
    rw [hl j hj, hh j hj]
    exact h j s p hs hp

theorem offsetsIn_dedicated (hki : record.segment.kind = .dedicated) (left right : List SegmentRecord) :
    offsetsIn (left ++ record :: right) = offsetsIn (left ++ right) := by
  funext i k
  simp [offsetsIn, inFile, hki]

theorem free_unknown (hid : ∀ record ∈ allocator.registry.records, record.segment.id ≠ segment.id) :
    allocator.free segment = ({ error := .doubleFree }, allocator) := by
  rw [free, RegistryInvariant.take_none hid]

variable (h : AllocatorInvariant config history allocator) (hvalid : validateFileSegmentAllocatorConfig config = .ok)
include h

theorem refused (size : ℤ) (opened : Except ℤ ℤ) {allocation : FileAllocation} (herr : allocation.result.error ≠ .ok)
    {next : ℕ} (hn : allocator.registry.nextSegmentId ≤ next) :
    AllocatorInvariant config (history ++ [(.allocate size opened, .allocated allocation)])
      { allocator with registry := { allocator.registry with nextSegmentId := next } } := by
  have hp : placements [(Call.allocate size opened, Answer.allocated allocation)] = [] := by
    simp [placements, herr]
  have ha := placements_append history (.allocate size opened, .allocated allocation)
  rw [hp, append_nil] at ha
  refine ⟨h.config_eq, h.registry.skip hp (fun _ => rfl) hn, h.length_eq, ?_, ?_, h.dedicatedFiles, ?_⟩
  · rw [ha]
    exact h.placers
  · rw [ha]
    exact h.placed
  · exact forall_append h.answers fun ho => absurd ho herr

theorem placer_of_size {i : ℕ} {size : ℤ} (hs : config.bucketSizes[i]? = some size) :
    ∃ placer, allocator.buckets[i]? = some placer :=
  ⟨_, getElem?_eq_getElem (h.length_eq ▸ (List.getElem?_eq_some_iff.mp hs).1)⟩

theorem size_of_placer {i : ℕ} {placer : BucketPlacer} (hp : allocator.buckets[i]? = some placer) :
    ∃ size, config.bucketSizes[i]? = some size :=
  ⟨_, getElem?_eq_getElem (h.length_eq ▸ (List.getElem?_eq_some_iff.mp hp).1)⟩

section

variable {bucketSize : ℤ} {i : ℕ} (opened : Except ℤ ℤ) (hpos : 0 < size)
  (hbu : config.bucketSizes[i]? = some bucketSize) (hle : size ≤ bucketSize)
include hpos hbu hle

theorem bucketPlaced {placer : BucketPlacer} (hp : allocator.buckets[i]? = some placer) {placed : FileAllocation × BucketPlacer}
    (ho : placed.1.result.error = .ok)
    (hr : PlacerInvariant.Reports bucketSize.toNat allocator.registry.nextSegmentId size placed.1)
    (hpl : PlacerInvariant bucketSize.toNat config.fileSizeLimitBytes.toNat
      (Function.update (offsetsIn allocator.registry.records i) placed.1.record.fileIndex
        (placed.1.record.segment.offset :: offsetsIn allocator.registry.records i placed.1.record.fileIndex))
      (Function.update (offsetsIn (placements history) i) placed.1.record.fileIndex
        (offsetsIn (placements history) i placed.1.record.fileIndex ++ [placed.1.record.segment.offset])) placed.2) :
    let record : SegmentRecord := { placed.1.record with bucketIndex := i }
    AllocatorInvariant config
      (history ++ [(.allocate size opened, .allocated { placed.1 with record := record })])
      { allocator with
        registry := { allocator.registry with
          nextSegmentId := allocator.registry.nextSegmentId + 1 : SegmentRegistry }.register record
        buckets := allocator.buckets.set i placed.2 } := by
  intro record
  have ha := placements_append history (.allocate size opened, .allocated { placed.1 with record := record })
  rw [show placements [(Call.allocate size opened, Answer.allocated { placed.1 with record := record })] = [record] by
    simp [placements, ho]] at ha
  have hki : record.segment.kind = .bucket := hr.kind
  have hid : record.segment.id = allocator.registry.nextSegmentId := hr.id
  rw [h.registry.register_eq hid]
  refine ⟨h.config_eq, h.registry.register ho hid, ?_, ?_, ?_, fun id => ?_, ?_⟩
  · rw [length_set]
    exact h.length_eq
  · rw [ha]
    have hf := offsetsIn_insert [] allocator.registry.records hki
    have hb := offsetsIn_insert (placements history) [] hki
    have hn : ∀ i k, offsetsIn [] i k = [] := fun _ _ => rfl
    simp only [nil_append, append_nil, hn] at hf hb
    refine setPlacer (offsetsIn (record :: allocator.registry.records)) (offsetsIn (placements history ++ [record])) hbu
      hp h.placers ?_ ?_ ?_
    · rw [hf, if_pos rfl, hb, if_pos rfl]
      exact hpl
    · intro j hj
      rw [hf, if_neg hj]
    · intro j hj
      rw [hb, if_neg hj]
  · rw [ha]
    refine forall_mem_append.mpr ⟨h.placed, forall_mem_singleton.mpr ⟨fun _ => ?_, fun hd => ?_⟩⟩
    · refine ⟨bucketSize, hbu, hr.allocated, ?_⟩
      show placed.1.record.segment.requestedSize ≤ bucketSize.toNat
      rw [hr.requested]
      exact Int.toNat_le_toNat hle
    · rw [hki] at hd
      cases hd
  · rw [h.dedicatedFiles]
    simp [hki]
  · refine forall_append h.answers fun _ => ⟨hpos, ?_, hr.segment⟩
    rw [← hr.requested, hr.segment]

include hvalid in
theorem allocateBucket : AllocatorInvariant config
      (history ++ [(.allocate size opened, .allocated (allocator.allocateBucket size i opened).1)])
      (allocator.allocateBucket size i opened).2 := by
  obtain ⟨placer, hp⟩ := h.placer_of_size hbu
  obtain ⟨_, hf⟩ := valid_bucketSize hvalid (mem_of_getElem? hbu)
  have ha := (h.placers i bucketSize placer hbu hp).allocate (Int.toNat_le_toNat hf) size
    allocator.registry.nextSegmentId opened
  rw [FileSegmentAllocator.allocateBucket]
  simp only [hp]
  generalize placer.allocate size allocator.registry.nextSegmentId opened = placed at ha
  rcases ha with ⟨ho, hrep, hpl⟩ | ⟨herr, hpl⟩
  · rw [if_pos ho]
    exact h.bucketPlaced opened hpos hbu hle hp ho hrep hpl
  · rw [if_neg herr]
    have hr := h.refused size opened herr (Nat.le_succ _)
    refine { hr with length_eq := ?_, placers := ?_ }
    · rw [length_set]
      exact h.length_eq
    · have hap : placements (history ++ [(Call.allocate size opened, Answer.allocated placed.1)]) =
          placements history := by
        simp [placements, herr]
      rw [hap]
      exact setPlacer (offsetsIn allocator.registry.records) (offsetsIn (placements history)) hbu hp
        h.placers hpl (fun _ _ => rfl) (fun _ _ => rfl)

end

theorem allocateDedicated (hpos : 0 < size) (opened : Except ℤ ℤ) : AllocatorInvariant config
      (history ++ [(.allocate size opened, .allocated (allocator.allocateDedicated size opened).1)])
      (allocator.allocateDedicated size opened).2 := by
  cases opened with
  | error errno =>
    have herr : (allocator.allocateDedicated size (.error errno)).1.result.error ≠ .ok := by
      simp [FileSegmentAllocator.allocateDedicated, DedicatedPlacer.allocate]
    exact h.refused size (.error errno) herr (Nat.le_succ _)
  | ok fd =>
    let record : SegmentRecord :=
      { segment := { fd := fd, offset := 0, requestedSize := size.toNat, allocatedSize := size.toNat,
                     kind := .dedicated, id := allocator.registry.nextSegmentId } }
    have hfr : allocator.dedicatedPlacer.files.any (·.1 == allocator.registry.nextSegmentId) = false := by
      rw [any_eq_false]
      intro file hf
      obtain ⟨live, hl, _, hid⟩ := (h.dedicatedFiles file.1).mp ⟨file, hf, rfl⟩
      have hlt := h.registry.ids_lt live (h.registry.live live hl)
      simp only [beq_iff_eq]
      omega
    have ha := placements_append history
      (.allocate size (.ok fd), .allocated { result := { segment := record.segment }, record := record })
    rw [show placements [(Call.allocate size (.ok fd),
      Answer.allocated { result := { segment := record.segment }, record := record })] = [record] from rfl] at ha
    have hs : allocator.allocateDedicated size (.ok fd) =
        ({ result := { segment := record.segment }, record := record },
          { allocator with
            registry := { nextSegmentId := allocator.registry.nextSegmentId + 1,
                          records := record :: allocator.registry.records }
            dedicatedPlacer :=
              { files := (allocator.registry.nextSegmentId, fd) :: allocator.dedicatedPlacer.files } }) := by
      have hr := h.registry.register_eq (show record.segment.id = _ from rfl)
      simp only [FileSegmentAllocator.allocateDedicated, DedicatedPlacer.allocate, hfr]
      exact congrArg _ (congrArg (FileSegmentAllocator.mk _ _ _ · _) hr)
    rw [hs]
    refine ⟨h.config_eq, h.registry.register rfl rfl, h.length_eq, ?_, ?_, fun id => ?_, ?_⟩
    · rw [ha, offsetsIn_dedicated rfl, append_nil]
      show ∀ i s placer, _ → _ →
        PlacerInvariant _ _ (offsetsIn ([] ++ record :: allocator.registry.records) i) _ _
      exact h.placers
    · rw [ha]
      refine forall_mem_append.mpr ⟨h.placed, forall_mem_singleton.mpr ⟨fun hbu => ?_, fun _ => ?_⟩⟩
      · cases hbu
      · exact ⟨rfl, rfl⟩
    · simp only [mem_cons, exists_eq_or_imp, h.dedicatedFiles id, record, true_and]
    · exact forall_append h.answers fun _ => ⟨hpos, rfl, rfl⟩

include hvalid in
/-- An allocation keeps the invariant, whatever the system answers. -/
theorem allocate (size : ℤ) (opened : Except ℤ ℤ) :
    AllocatorInvariant config (history ++ [(.allocate size opened, .allocated (allocator.allocate size opened).1)])
      (allocator.allocate size opened).2 := by
  rw [FileSegmentAllocator.allocate]
  split
  · exact h.refused size opened (by simp) le_rfl
  · split
    · exact h.refused size opened (by simp) le_rfl
    · rename_i hpos
      rw [h.config_eq]
      cases hf : config.bucketSizes.findIdx? (fun bucketSize => decide (size ≤ bucketSize)) with
      | none => exact h.allocateDedicated (by omega) opened
      | some i =>
        obtain ⟨hlt, hle, _⟩ := findIdx?_eq_some_iff_getElem.mp hf
        exact h.allocateBucket hvalid opened (by omega) (getElem?_eq_getElem hlt) (by simpa using hle)

section

variable (hre : record ∈ allocator.registry.records)
  (hid : segment.id = record.segment.id)
include hre hid

theorem free_dedicated (hki : record.segment.kind = .dedicated) : (allocator.free segment).1 = {} ∧
      AllocatorInvariant config (history ++ [(.free segment, .freed {})]) (allocator.free segment).2 := by
  obtain ⟨rest, ht, hp, hfil⟩ := h.registry.take_some hre
  have hf : allocator.dedicatedPlacer.files.any (·.1 == record.segment.id) = true := by
    obtain ⟨file, hm, hf⟩ := (h.dedicatedFiles record.segment.id).mpr ⟨record, hre, hki, rfl⟩
    exact any_eq_true.mpr ⟨file, hm, beq_iff_eq.mpr hf⟩
  have ho : offsetsIn rest = offsetsIn allocator.registry.records := by
    funext i k
    rw [offsetsIn, offsetsIn, hfil _ (by simp [inFile, hki])]
  have ha := placements_freed history segment {}
  have hids := (hp.map (·.segment.id)).nodup_iff.mp h.registry.ids
  rw [map_cons, nodup_cons] at hids
  simp only [free, hid, ht, hki, DedicatedPlacer.free, hf, if_true]
  refine ⟨trivial, h.config_eq, h.registry.freed hp hid, h.length_eq, ?_, ?_, fun id => ?_, ?_⟩
  · rw [ha, ho]
    exact h.placers
  · rw [ha]
    exact h.placed
  · have hfi := h.dedicatedFiles id
    simp only [hp.mem_iff, mem_cons, exists_eq_or_imp, hki, true_and] at hfi
    simp only [mem_filter, bne_iff_ne]
    constructor
    · rintro ⟨file, ⟨hm, hne⟩, rfl⟩
      exact (hfi.mp ⟨file, hm, rfl⟩).resolve_left (Ne.symm hne)
    · rintro ⟨live, hl, hdedicated, rfl⟩
      obtain ⟨file, hm, hf⟩ := hfi.mpr (.inr ⟨live, hl, hdedicated, rfl⟩)
      refine ⟨file, ⟨hm, fun heq => hids.1 ?_⟩, hf⟩
      exact mem_map.mpr ⟨live, hl, hf.symm.trans heq⟩
  · exact forall_append h.answers trivial

theorem free_bucket (hki : record.segment.kind = .bucket) : (allocator.free segment).1 = {} ∧
      AllocatorInvariant config (history ++ [(.free segment, .freed {})]) (allocator.free segment).2 := by
  obtain ⟨rest, ht, hp, hf⟩ := h.registry.take_some hre
  obtain ⟨size, hs, _⟩ := (h.placed record (h.registry.live record hre)).bucket hki
  obtain ⟨placer, hpl⟩ := h.placer_of_size hs
  have ho : ∀ i k, (i = record.bucketIndex → k ≠ record.fileIndex) →
      offsetsIn rest i k = offsetsIn allocator.registry.records i k := by
    intro i k hne
    have hou : record.inFile i k = false := by
      rw [inFile, Bool.and_eq_false_iff, Bool.and_eq_false_iff]
      by_cases hi : record.bucketIndex = i
      · exact .inr (beq_eq_false_iff_ne.mpr (Ne.symm (hne hi.symm)))
      · exact .inl (.inr (beq_eq_false_iff_ne.mpr hi))
    rw [offsetsIn, offsetsIn, hf _ hou]
  have hl : (offsetsIn allocator.registry.records record.bucketIndex record.fileIndex).Perm
      (record.segment.offset :: offsetsIn rest record.bucketIndex record.fileIndex) := by
    have hin : record.inFile record.bucketIndex record.fileIndex = true := by simp [inFile, hki]
    have hof := (hp.filter (·.inFile record.bucketIndex record.fileIndex)).map (·.segment.offset)
    rwa [filter_cons_of_pos hin] at hof
  obtain ⟨hfr, hpla⟩ := (h.placers record.bucketIndex size placer hs hpl).free
    (fun k hk => ho _ k fun _ => hk) hl
  have ha := placements_freed history segment {}
  simp only [free, hid, ht, hki, hpl]
  refine ⟨hfr, h.config_eq, h.registry.freed hp hid, ?_, ?_, ?_, fun id => ?_, ?_⟩
  · rw [length_set]
    exact h.length_eq
  · rw [ha]
    exact setPlacer (offsetsIn rest) (offsetsIn (placements history)) hs hpl h.placers hpla
      (fun j hj => funext fun k => ho j k fun heq => absurd heq hj) (fun _ _ => rfl)
  · rw [ha]
    exact h.placed
  · rw [h.dedicatedFiles id]
    simp [hp.mem_iff, hki]
  · exact forall_append h.answers trivial

theorem free_live : (allocator.free segment).1 = {} ∧
      AllocatorInvariant config (history ++ [(.free segment, .freed {})]) (allocator.free segment).2 := by
  cases hki : record.segment.kind with
  | bucket => exact h.free_bucket hre hid hki
  | dedicated => exact h.free_dedicated hre hid hki

end

/-- A free keeps the invariant, also of a segment that is not live. -/
theorem free (segment : FileSegment) :
    AllocatorInvariant config (history ++ [(.free segment, .freed (allocator.free segment).1)])
      (allocator.free segment).2 := by
  by_cases hl : ∃ record ∈ allocator.registry.records, segment.id = record.segment.id
  · obtain ⟨record, hre, hid⟩ := hl
    obtain ⟨ho, hinv⟩ := h.free_live hre hid
    rw [ho]
    exact hinv
  · have hu : ∀ record ∈ allocator.registry.records, record.segment.id ≠ segment.id :=
      fun record hre hid => hl ⟨record, hre, hid.symm⟩
    rw [free_unknown hu]
    have ha := placements_freed history segment { error := .doubleFree }
    refine ⟨h.config_eq, h.registry.skip rfl (fun _ => by simp [isFreeOf]) le_rfl, h.length_eq, ?_, ?_,
      h.dedicatedFiles, forall_append h.answers trivial⟩
    · rw [ha]
      exact h.placers
    · rw [ha]
      exact h.placed

include hvalid in
theorem call (c : Call) : AllocatorInvariant config (history ++ [(c, (call allocator c).1)]) (call allocator c).2 := by
  cases c with
  | allocate size opened => exact h.allocate hvalid size opened
  | free segment => exact h.free segment

omit h in
include hvalid in
/-- The invariant holds after any calls. -/
theorem run_create (calls : List Call) : AllocatorInvariant config (run FileSegments.call (create config) calls).1
      (run FileSegments.call (create config) calls).2 :=
  run_invariant (fun _ _ c h => h.call hvalid c) calls [] _ (created config)

include hvalid in
theorem bucket_file (hre : record ∈ allocator.registry.records) (hki : record.segment.kind = .bucket) :
    ∃ size file, config.bucketSizes[record.bucketIndex]? = some size ∧ 0 < size ∧
      record.segment.allocatedSize = size.toNat ∧
      record.segment.offset ∈ offsetsIn allocator.registry.records record.bucketIndex record.fileIndex ∧
      FileInvariant size.toNat config.fileSizeLimitBytes.toNat
        (offsetsIn allocator.registry.records record.bucketIndex record.fileIndex)
        (offsetsIn (placements history) record.bucketIndex record.fileIndex) file := by
  obtain ⟨size, hs, ha, _⟩ := (h.placed record (h.registry.live record hre)).bucket hki
  obtain ⟨placer, hp⟩ := h.placer_of_size hs
  have hinv := h.placers record.bucketIndex size placer hs hp
  have hin : record.inFile record.bucketIndex record.fileIndex = true := by simp [inFile, hki]
  have ho : record.segment.offset ∈ offsetsIn allocator.registry.records record.bucketIndex record.fileIndex :=
    mem_map.mpr ⟨record, mem_filter.mpr ⟨hre, hin⟩, rfl⟩
  obtain ⟨file, hf, hind⟩ := (hinv.kept record.fileIndex).mp (ne_nil_of_mem ho)
  refine ⟨size, file, hs, (valid_bucketSize hvalid (mem_of_getElem? hs)).1, ha, ho, ?_⟩
  have hsl := hinv.files file hf
  rwa [hind] at hsl

end AllocatorInvariant

def SegmentRecord.file (record : SegmentRecord) : FileSegmentKind × ℕ × ℕ :=
  match record.segment.kind with
  | .bucket => (.bucket, record.bucketIndex, record.fileIndex)
  | .dedicated => (.dedicated, 0, record.segment.id)

def SegmentRecord.Disjoint (r s : SegmentRecord) : Prop :=
  r.segment.offset + r.segment.allocatedSize ≤ s.segment.offset ∨
    s.segment.offset + s.segment.allocatedSize ≤ r.segment.offset

theorem slots_apart {size i j : ℕ} (hne : i * size ≠ j * size) :
    i * size + size ≤ j * size ∨ j * size + size ≤ i * size := by
  have hij : i ≠ j := fun heq => hne (heq ▸ rfl)
  rcases Nat.lt_or_gt_of_ne hij with hlt | hlt
  · left
    rw [← Nat.succ_mul]
    exact Nat.mul_le_mul_right size hlt
  · right
    rw [← Nat.succ_mul]
    exact Nat.mul_le_mul_right size hlt

structure SegmentsSafe (config : FileSegmentAllocatorConfig) (history : List (Call × Answer))
    (allocator : FileSegmentAllocator) : Prop where
  /-- An allocation that succeeds reports the segment that the registry keeps. -/
  answers : ∀ entry ∈ history, AnswersRequest entry
  disjoint : ∀ r ∈ allocator.registry.records, ∀ s ∈ allocator.registry.records, r ≠ s → r.file = s.file →
    r.Disjoint s
  bucket : ∀ r ∈ allocator.registry.records, r.segment.kind = .bucket →
    ∃ size : ℤ, config.bucketSizes[r.bucketIndex]? = some size ∧ (r.segment.allocatedSize : ℤ) = size ∧
      (r.segment.offset : ℤ) % size = 0 ∧
      (r.segment.offset + r.segment.allocatedSize : ℤ) ≤ config.fileSizeLimitBytes ∧
      r.segment.requestedSize ≤ r.segment.allocatedSize
  dedicated : ∀ r ∈ allocator.registry.records, r.segment.kind = .dedicated →
    r.segment.offset = 0 ∧ r.segment.requestedSize = r.segment.allocatedSize ∧
      ∀ s ∈ allocator.registry.records, s.file = r.file → s = r
  partition : ∀ (i : ℕ) (placer : BucketPlacer), allocator.buckets[i]? = some placer → ∀ file ∈ placer.files,
    (file.freeSegmentOffsets ++ offsetsIn allocator.registry.records i file.fileIndex).Nodup ∧
      ∀ offset, offset ∈ offsetsIn (placements history) i file.fileIndex ↔
        offset ∈ file.freeSegmentOffsets ∨ offset ∈ offsetsIn allocator.registry.records i file.fileIndex
  bucketFiles : ∀ (i : ℕ) (placer : BucketPlacer), allocator.buckets[i]? = some placer → ∀ k,
    (∃ file ∈ placer.files, file.fileIndex = k) ↔ ∃ r ∈ allocator.registry.records, r.file = (.bucket, i, k)
  dedicatedFiles : ∀ id, (∃ file ∈ allocator.dedicatedPlacer.files, file.1 = id) ↔
    ∃ r ∈ allocator.registry.records, r.file = (.dedicated, 0, id)
  once : ∀ r ∈ placements history,
    (history.countP (isFreeOf r.segment.id) = 0 ∧ r ∈ allocator.registry.records) ∨
      (history.countP (isFreeOf r.segment.id) = 1 ∧ ∀ s ∈ allocator.registry.records, s.segment.id ≠ r.segment.id)
  free_live : ∀ segment : FileSegment, (∃ r ∈ allocator.registry.records, r.segment.id = segment.id) →
    (allocator.free segment).1.error = .ok
  free_unknown : ∀ segment : FileSegment, (∀ r ∈ allocator.registry.records, r.segment.id ≠ segment.id) →
    allocator.free segment = ({ error := .doubleFree }, allocator)

namespace SegmentsSafe

variable {config : FileSegmentAllocatorConfig} {history : List (Call × Answer)} {allocator : FileSegmentAllocator}
variable {r : SegmentRecord}

theorem file_eq_bucket {i k : ℕ} :
    r.file = (.bucket, i, k) ↔ r.segment.kind = .bucket ∧ r.bucketIndex = i ∧ r.fileIndex = k := by
  rw [file]
  split
  case h_1 hki => simp [hki]
  case h_2 hki => simp [hki]

theorem file_eq_dedicated {id : ℕ} : r.file = (.dedicated, 0, id) ↔ r.segment.kind = .dedicated ∧ r.segment.id = id := by
  rw [file]
  split
  case h_1 hki => simp [hki]
  case h_2 hki => simp [hki]

section

variable (h : AllocatorInvariant config history allocator) (hvalid : validateFileSegmentAllocatorConfig config = .ok)
include h

theorem dedicated_alone {s : SegmentRecord} (hr : r ∈ allocator.registry.records) (hs : s ∈ allocator.registry.records)
    (hki : r.segment.kind = .dedicated) (hf : s.file = r.file) : s = r := by
  rw [file_eq_dedicated.mpr ⟨hki, rfl⟩] at hf
  exact inj_on_of_nodup_map h.registry.ids hs hr (file_eq_dedicated.mp hf).2

include hvalid in
theorem bucket_disjoint {s : SegmentRecord} (hr : r ∈ allocator.registry.records) (hs : s ∈ allocator.registry.records)
    (hne : r ≠ s) (hki : r.segment.kind = .bucket) (hf : r.file = s.file) :
    r.Disjoint s := by
  rw [file_eq_bucket.mpr ⟨hki, rfl, rfl⟩] at hf
  obtain ⟨hsk, hbu, hind⟩ := file_eq_bucket.mp hf.symm
  obtain ⟨size, file, hsi, hpos, hrsize, hroffset, hsl⟩ := h.bucket_file hvalid hr hki
  obtain ⟨size', _, hsi', _, hssize, hsoffset, _⟩ := h.bucket_file hvalid hs hsk
  rw [hbu, hsi, Option.some.injEq] at hsi'
  rw [hbu, hind] at hsoffset
  subst hsi'
  obtain ⟨⟨i, hi⟩, _⟩ := hsl.live_slot hroffset
  obtain ⟨⟨j, hj⟩, _⟩ := hsl.live_slot hsoffset
  have hn : (offsetsIn allocator.registry.records r.bucketIndex r.fileIndex).Nodup :=
    (hsl.nodup (by omega)).of_append_right
  have hin : ∀ t : SegmentRecord, t.segment.kind = .bucket → t.bucketIndex = r.bucketIndex →
      t.fileIndex = r.fileIndex → t.inFile r.bucketIndex r.fileIndex = true := by
    intro t ht hb hk
    simp [inFile, ht, hb, hk]
  have ho : r.segment.offset ≠ s.segment.offset := fun heq => hne <|
    inj_on_of_nodup_map hn (mem_filter.mpr ⟨hr, hin r hki rfl rfl⟩)
      (mem_filter.mpr ⟨hs, hin s hsk hbu hind⟩) heq
  rw [SegmentRecord.Disjoint, hrsize, hssize, hi, hj]
  rw [hi, hj] at ho
  exact slots_apart ho

include hvalid in
theorem of_invariant : SegmentsSafe config history allocator where
  answers := h.answers
  disjoint r hr s hs hne hf := by
    cases hki : r.segment.kind with
    | bucket => exact bucket_disjoint h hvalid hr hs hne hki hf
    | dedicated => exact absurd (dedicated_alone h hr hs hki hf.symm).symm hne
  bucket r hr hki := by
    obtain ⟨size, file, hs, hpos, ha, ho, hsl⟩ := h.bucket_file hvalid hr hki
    obtain ⟨⟨slot, hslot⟩, hl⟩ := hsl.live_slot ho
    obtain ⟨size', hs', _, hrequested⟩ := (h.placed r (h.registry.live r hr)).bucket hki
    rw [hs, Option.some.injEq] at hs'
    subst hs'
    have hc : size.toNat = size := Int.toNat_of_nonneg (Int.le_of_lt hpos)
    refine ⟨size, hs, ?_, ?_, ?_, ?_⟩
    · rw [ha, hc]
    · rw [hslot, Int.natCast_mul, hc]
      exact Int.mul_emod_left _ _
    · omega
    · rw [ha]
      exact hrequested
  dedicated r hr hki := by
    obtain ⟨ho, hsi⟩ := (h.placed r (h.registry.live r hr)).dedicated hki
    exact ⟨ho, hsi, fun s hs hf => dedicated_alone h hr hs hki hf⟩
  partition i placer hp file hf := by
    obtain ⟨size, hsi⟩ := h.size_of_placer hp
    have hsl := (h.placers i size placer hsi hp).files file hf
    have hpos := (valid_bucketSize hvalid (mem_of_getElem? hsi)).1
    exact ⟨hsl.nodup (by omega), hsl.handed⟩
  bucketFiles i placer hp k := by
    obtain ⟨size, hsi⟩ := h.size_of_placer hp
    rw [← (h.placers i size placer hsi hp).kept k]
    simp [offsetsIn, inFile, filter_eq_nil_iff, file_eq_bucket, and_assoc]
  dedicatedFiles id := by
    rw [h.dedicatedFiles id]
    simp only [file_eq_dedicated]
  once r hr := by
    have ho := h.registry.once r.segment.id
    rw [count_eq_one_of_mem h.registry.placed (mem_map.mpr ⟨r, hr, rfl⟩)] at ho
    by_cases hl : r.segment.id ∈ allocator.registry.records.map (·.segment.id)
    · left
      rw [count_eq_one_of_mem h.registry.ids hl] at ho
      obtain ⟨s, hs, hid⟩ := mem_map.mp hl
      have heq : s = r := inj_on_of_nodup_map h.registry.placed (h.registry.live s hs) hr hid
      exact ⟨by omega, heq ▸ hs⟩
    · right
      rw [count_eq_zero_of_not_mem hl] at ho
      exact ⟨ho, fun s hs hid => hl (mem_map.mpr ⟨s, hs, hid⟩)⟩
  free_live segment hl := by
    obtain ⟨r, hr, hid⟩ := hl
    rw [(h.free_live hr hid.symm).1]
  free_unknown segment hid := AllocatorInvariant.free_unknown hid

end

end SegmentsSafe

/-- After every sequence of calls on an allocator with a valid configuration, the live
segments of a file are disjoint, bucket segments are aligned to their bucket size and
within the file size limit, the free and live offsets partition those handed out, a file
is kept exactly while it has live segments, and a segment can be freed exactly once. -/
theorem run_segmentsSafe (config : FileSegmentAllocatorConfig)
    (hvalid : validateFileSegmentAllocatorConfig config = .ok) (calls : List Call) :
    SegmentsSafe config (run call (create config) calls).1 (run call (create config) calls).2 :=
  SegmentsSafe.of_invariant (AllocatorInvariant.run_create hvalid calls) hvalid

def twoBuckets : FileSegmentAllocatorConfig where
  directory := "spill"
  bucketSizes := [4096, 8192]
  fileSizeLimitBytes := 16384
  maxOpenFilesPerBucket := 2

def reuseSlot : List Call :=
  [.allocate 100 (.ok 3), .allocate 5000 (.ok 4), .allocate 4096 (.ok 5), .free { id := 1 }, .allocate 1 (.ok 6),
    .free { id := 1 }]

theorem run_segmentsSafe_reuseSlot : SegmentsSafe twoBuckets (run call (create twoBuckets) reuseSlot).1
      (run call (create twoBuckets) reuseSlot).2 ∧
      (run call (create twoBuckets) reuseSlot).2.registry.records.map (·.segment.offset) = [0, 4096, 0] :=
  ⟨run_segmentsSafe twoBuckets (by decide) reuseSlot, by decide⟩

/-- A segment that no bucket can hold is longer than the file size limit, and no bucket has
its size. -/
theorem dedicated_exceeds_limit : validateFileSegmentAllocatorConfig twoBuckets = .ok ∧
      ∃ record ∈ (run call (create twoBuckets) [.allocate 20000 (.ok 3)]).2.registry.records,
        twoBuckets.fileSizeLimitBytes < record.segment.offset + record.segment.allocatedSize ∧
          (record.segment.allocatedSize : ℤ) ∉ twoBuckets.bucketSizes := by
  decide

end Bolt.FileSegments
