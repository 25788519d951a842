import Bolt.BufferManager.FileSegments
import Mathlib.Data.List.Perm.Basic
import Mathlib.Data.List.Range
import Mathlib.Data.List.Nodup

/-!
# Slots, files and live segments

The free and the live slots of a bucket file are together the slots that were handed
out, and a file exists exactly while it has live slots.
-/

namespace Bolt.FileSegments

open List Function

/-- The slots of a bucket file, its live offsets and those handed out so far. -/
structure FileInvariant (bucketSize limit : ℕ) (live handed : List ℕ) (file : BucketFile) : Prop where
  slots : ∃ count, file.nextOffset = count * bucketSize ∧
    (file.freeSegmentOffsets ++ live).Perm ((range count).map (· * bucketSize))
  fits : file.nextOffset ≤ limit
  active : file.activeSegments = live.length
  handed : ∀ offset, offset ∈ handed ↔ offset ∈ file.freeSegmentOffsets ∨ offset ∈ live

theorem FileInvariant.created {bucketSize limit fileIndex : ℕ} {fd : ℤ} :
    FileInvariant bucketSize limit [] [] { fileIndex := fileIndex, fd := fd } where
  slots := ⟨0, by simp, by simp⟩
  fits := Nat.zero_le _
  active := rfl
  handed := by simp

section Slots

variable {bucketSize limit offset : ℕ} {live live' handed : List ℕ} {file : BucketFile}
  (h : FileInvariant bucketSize limit live handed file)

include h

/-- A slot is taken from the free ones, or at the end of the file. -/
theorem FileInvariant.takeSlot (hr : file.freeSegmentOffsets ≠ [] ∨ file.nextOffset + bucketSize ≤ limit) :
    FileInvariant bucketSize limit ((BucketPlacer.takeSlot bucketSize file).1 :: live)
      (handed ++ [(BucketPlacer.takeSlot bucketSize file).1]) (BucketPlacer.takeSlot bucketSize file).2 := by
  obtain ⟨count, hn, hs⟩ := h.slots
  cases hf : file.freeSegmentOffsets with
  | cons offset rest =>
    simp only [BucketPlacer.takeSlot, hf]
    rw [hf] at hs
    refine ⟨⟨count, hn, ?_⟩, h.fits, ?_, fun o => ?_⟩
    · exact perm_middle.trans hs
    · simp [h.active]
    · rw [mem_append, mem_singleton, h.handed, hf]
      simp only [mem_cons]
      tauto
  | nil =>
    have hfi := hr.resolve_left fun hne => hne hf
    simp only [BucketPlacer.takeSlot, hf]
    rw [hf, nil_append] at hs
    refine ⟨⟨count + 1, ?_, ?_⟩, hfi, ?_, fun o => ?_⟩
    · rw [hn, Nat.succ_mul]
    · rw [nil_append, range_succ, map_append, hn]
      exact ((perm_append_singleton _ _).trans (hs.symm.cons _)).symm
    · simp [h.active]
    · rw [mem_append, mem_singleton, h.handed, hf]
      simp only [mem_cons, not_mem_nil, false_or]
      tauto

/-- A slot that is given back is free again. -/
theorem FileInvariant.freeSlot (hl : live.Perm (offset :: live')) : FileInvariant bucketSize limit live' handed
      { file with freeSegmentOffsets := offset :: file.freeSegmentOffsets,
                  activeSegments := file.activeSegments - 1 } := by
  obtain ⟨count, hn, hs⟩ := h.slots
  refine ⟨⟨count, hn, ?_⟩, h.fits, ?_, fun o => ?_⟩
  · have hm : (file.freeSegmentOffsets ++ live).Perm (offset :: file.freeSegmentOffsets ++ live') :=
      (hl.append_left _).trans perm_middle
    exact hm.symm.trans hs
  · show file.activeSegments - 1 = live'.length
    rw [h.active, hl.length_eq, length_cons, Nat.add_sub_cancel]
  · rw [h.handed, hl.mem_iff]
    simp only [mem_cons]
    tauto

theorem FileInvariant.live_slot (hof : offset ∈ live) :
    (∃ slot, offset = slot * bucketSize) ∧ offset + bucketSize ≤ limit := by
  obtain ⟨count, hn, hs⟩ := h.slots
  obtain ⟨slot, hslot, rfl⟩ := mem_map.mp (hs.mem_iff.mp (mem_append_right _ hof))
  refine ⟨⟨slot, rfl⟩, ?_⟩
  have hle := Nat.mul_le_mul_right bucketSize (Nat.succ_le_of_lt (mem_range.mp hslot))
  have hf := h.fits
  rw [Nat.succ_mul] at hle
  omega

theorem FileInvariant.nodup (hp : 0 < bucketSize) : (file.freeSegmentOffsets ++ live).Nodup := by
  obtain ⟨count, _, hs⟩ := h.slots
  rw [hs.nodup_iff]
  exact nodup_range.map fun _ _ heq => Nat.eq_of_mul_eq_mul_right hp heq

end Slots

/-- The files of a bucket: their indices are distinct and were used before, and a file is
kept exactly while it has live offsets. -/
structure PlacerInvariant (bucketSize limit : ℕ) (live handed : ℕ → List ℕ) (placer : BucketPlacer) : Prop where
  bucketSize_eq : placer.bucketSize = bucketSize
  limit_eq : placer.fileSizeLimitBytes = limit
  indices : (placer.files.map (·.fileIndex)).Nodup
  fresh : ∀ k, placer.nextFileIndex ≤ k → handed k = []
  lt_next : ∀ file ∈ placer.files, file.fileIndex < placer.nextFileIndex
  files : ∀ file ∈ placer.files, FileInvariant bucketSize limit (live file.fileIndex) (handed file.fileIndex) file
  kept : ∀ k, live k ≠ [] ↔ ∃ file ∈ placer.files, file.fileIndex = k

namespace PlacerInvariant

variable {bucketSize limit : ℕ} {live handed : ℕ → List ℕ} {placer : BucketPlacer}

theorem map_fileIndex_updateFile (placer : BucketPlacer) (file : BucketFile) :
    (placer.updateFile file).files.map (·.fileIndex) = placer.files.map (·.fileIndex) := by
  simp only [BucketPlacer.updateFile, map_map]
  refine map_congr_left fun f _ => ?_
  simp only [comp_apply]
  split
  case isTrue h => exact h.symm
  case isFalse => rfl

theorem takeSlot_fileIndex (bucketSize : ℕ) (file : BucketFile) :
    (BucketPlacer.takeSlot bucketSize file).2.fileIndex = file.fileIndex := by
  unfold BucketPlacer.takeSlot
  split <;> rfl

/-- A segment placed in a file of the placer. The file itself need not be kept yet. -/
theorem place {file : BucketFile} (hs : placer.bucketSize = bucketSize) (hli : placer.fileSizeLimitBytes = limit)
    (hindi : (placer.files.map (·.fileIndex)).Nodup)
    (hfr : ∀ k, placer.nextFileIndex ≤ k → handed k = [])
    (hlt : ∀ f ∈ placer.files, f.fileIndex < placer.nextFileIndex)
    (hfi : ∀ f ∈ placer.files, FileInvariant bucketSize limit (live f.fileIndex) (handed f.fileIndex) f)
    (hke : ∀ k, k ≠ file.fileIndex → (live k ≠ [] ↔ ∃ f ∈ placer.files, f.fileIndex = k))
    (hfil : file ∈ placer.files)
    (hr : file.freeSegmentOffsets ≠ [] ∨ file.nextOffset + bucketSize ≤ limit) (size : ℤ) (seg : ℕ) :
    PlacerInvariant bucketSize limit
      (update live file.fileIndex ((BucketPlacer.takeSlot bucketSize file).1 :: live file.fileIndex))
      (update handed file.fileIndex (handed file.fileIndex ++ [(BucketPlacer.takeSlot bucketSize file).1]))
      (placer.place file size seg).2 := by
  have hind := takeSlot_fileIndex bucketSize file
  have hm := map_fileIndex_updateFile placer (BucketPlacer.takeSlot bucketSize file).2
  have hme : ∀ k, (∃ f ∈ (placer.updateFile (BucketPlacer.takeSlot bucketSize file).2).files, f.fileIndex = k) ↔
      ∃ f ∈ placer.files, f.fileIndex = k := by
    intro k
    rw [← mem_map, ← mem_map, hm]
  rw [BucketPlacer.place, hs]
  refine ⟨hs, hli, hm ▸ hindi, fun k hk => ?_, fun f hf => ?_, fun f hf => ?_, fun k => ?_⟩
  · have hne : k ≠ file.fileIndex := fun h => absurd (hlt file hfil) (not_lt.mpr (h ▸ hk))
    rw [update_of_ne hne]
    exact hfr k hk
  · obtain ⟨g, hg, hgf⟩ := (hme f.fileIndex).mp ⟨f, hf, rfl⟩
    exact hgf ▸ hlt g hg
  · obtain ⟨g, hg, rfl⟩ := mem_map.mp hf
    split
    case isTrue heq =>
      rw [hind, update_self, update_self]
      exact (hfi file hfil).takeSlot hr
    case isFalse hne =>
      rw [hind] at hne
      rw [update_of_ne hne, update_of_ne hne]
      exact hfi g hg
  · rw [hme]
    by_cases hk : k = file.fileIndex
    · subst hk
      rw [update_self]
      exact iff_of_true (cons_ne_nil _ _) ⟨file, hfil, rfl⟩
    · rw [update_of_ne hk]
      exact hke k hk

/-- The segment that a placer reports, and the record that it leaves to the registry. -/
structure Reports (bucketSize segmentId : ℕ) (size : ℤ) (allocation : FileAllocation) : Prop where
  segment : allocation.record.segment = allocation.result.segment
  kind : allocation.record.segment.kind = .bucket
  id : allocation.record.segment.id = segmentId
  requested : allocation.record.segment.requestedSize = size.toNat
  allocated : allocation.record.segment.allocatedSize = bucketSize

theorem place_reports (placer : BucketPlacer) (file : BucketFile) (size : ℤ) (seg : ℕ) :
    Reports placer.bucketSize seg size (placer.place file size seg).1 :=
  ⟨rfl, rfl, rfl, rfl, rfl⟩

/-- What an allocation does to a placer: a slot of one file becomes live, or nothing is
handed out. -/
def Allocated (bucketSize limit : ℕ) (live handed : ℕ → List ℕ) (size : ℤ) (segmentId : ℕ)
    (answer : FileAllocation × BucketPlacer) : Prop :=
  (answer.1.result.error = .ok ∧ Reports bucketSize segmentId size answer.1 ∧
    PlacerInvariant bucketSize limit
      (update live answer.1.record.fileIndex
        (answer.1.record.segment.offset :: live answer.1.record.fileIndex))
      (update handed answer.1.record.fileIndex
        (handed answer.1.record.fileIndex ++ [answer.1.record.segment.offset])) answer.2) ∨
    (answer.1.result.error ≠ .ok ∧ PlacerInvariant bucketSize limit live handed answer.2)

section

variable (h : PlacerInvariant bucketSize limit live handed placer)
include h

theorem skipIndex :
    PlacerInvariant bucketSize limit live handed { placer with nextFileIndex := placer.nextFileIndex + 1 } :=
  { h with
    fresh := fun k hk => h.fresh k (Nat.le_of_succ_le hk)
    lt_next := fun file hf => Nat.lt_succ_of_lt (h.lt_next file hf) }

theorem placeCreated (hs : bucketSize ≤ limit) (fd : ℤ) (size : ℤ) (seg : ℕ) :
    let file : BucketFile := { fileIndex := placer.nextFileIndex, fd := fd }
    let created := { placer with nextFileIndex := placer.nextFileIndex + 1, files := placer.files ++ [file] }
    Allocated bucketSize limit live handed size seg (created.place file size seg) := by
  intro file created
  have hl : live placer.nextFileIndex = [] := by
    by_contra hne
    obtain ⟨f, hf, hind⟩ := (h.kept _).mp hne
    exact absurd (h.lt_next f hf) (by omega)
  have hh : handed placer.nextFileIndex = [] := h.fresh _ le_rfl
  have hindi : (created.files.map (·.fileIndex)).Nodup := by
    rw [map_append, nodup_append']
    refine ⟨h.indices, nodup_singleton _, ?_⟩
    intro k hk hn
    obtain ⟨f, hf, rfl⟩ := mem_map.mp hk
    have hlt := h.lt_next f hf
    have heq : f.fileIndex = placer.nextFileIndex := mem_singleton.mp hn
    omega
  have hfi : ∀ f ∈ created.files,
      FileInvariant bucketSize limit (live f.fileIndex) (handed f.fileIndex) f := by
    refine forall_mem_append.mpr ⟨h.files, forall_mem_singleton.mpr ?_⟩
    show FileInvariant bucketSize limit (live placer.nextFileIndex) (handed placer.nextFileIndex) file
    rw [hl, hh]
    exact FileInvariant.created
  have hke : ∀ k, k ≠ file.fileIndex → (live k ≠ [] ↔ ∃ f ∈ created.files, f.fileIndex = k) := by
    intro k hk
    rw [h.kept]
    constructor
    · rintro ⟨f, hf, hind⟩
      exact ⟨f, mem_append_left _ hf, hind⟩
    · rintro ⟨f, hf, hind⟩
      rcases mem_append.mp hf with hf | hf
      · exact ⟨f, hf, hind⟩
      · rw [mem_singleton.mp hf] at hind
        exact absurd hind.symm hk
  have hlt : ∀ f ∈ created.files, f.fileIndex < created.nextFileIndex := by
    refine forall_mem_append.mpr ⟨fun f hf => Nat.lt_succ_of_lt (h.lt_next f hf), ?_⟩
    exact forall_mem_singleton.mpr (Nat.lt_succ_self _)
  have hr : file.freeSegmentOffsets ≠ [] ∨ file.nextOffset + bucketSize ≤ limit :=
    .inr (by show 0 + bucketSize ≤ limit; omega)
  refine .inl ⟨rfl, h.bucketSize_eq ▸ place_reports created file size seg, ?_⟩
  have hc : created.bucketSize = bucketSize := h.bucketSize_eq
  have hp := place hc h.limit_eq hindi
    (fun k hk => h.fresh k (Nat.le_of_succ_le hk)) hlt hfi hke
    (mem_append_right _ (mem_singleton_self _)) hr size seg
  exact hp

/-- An allocation in a bucket hands out a slot that is not in use. -/
theorem allocate (hs : bucketSize ≤ limit) (size : ℤ) (seg : ℕ) (opened : Except ℤ ℤ) :
    Allocated bucketSize limit live handed size seg (placer.allocate size seg opened) := by
  rw [BucketPlacer.allocate]
  cases hf : placer.findReusableFile with
  | some file =>
    have hfi := mem_of_find?_eq_some hf
    have hr := find?_some hf
    have hr' : file.freeSegmentOffsets ≠ [] ∨ file.nextOffset + bucketSize ≤ limit := by
      simpa [h.bucketSize_eq, h.limit_eq] using hr
    refine .inl ⟨rfl, h.bucketSize_eq ▸ place_reports placer file size seg, ?_⟩
    have hp := place h.bucketSize_eq h.limit_eq h.indices h.fresh h.lt_next h.files (fun k _ => h.kept k) hfi
      hr' size seg
    rw [← h.bucketSize_eq] at hp ⊢
    exact hp
  | none =>
    dsimp only
    split
    case isTrue => exact .inr ⟨by simp, h⟩
    case isFalse =>
      cases opened with
      | error errno => exact .inr ⟨by simp [BucketPlacer.createFile], h.skipIndex⟩
      | ok fd => exact h.placeCreated hs fd size seg

theorem findFileByIndex {k : ℕ} (hk : live k ≠ []) :
    ∃ file, placer.findFileByIndex k = some file ∧ file ∈ placer.files ∧ file.fileIndex = k := by
  obtain ⟨g, hg, hgk⟩ := (h.kept k).mp hk
  cases hf : placer.findFileByIndex k with
  | none =>
    have hn := find?_eq_none.mp hf g hg
    simp [hgk] at hn
  | some file =>
    have hind := find?_some hf
    exact ⟨file, rfl, mem_of_find?_eq_some hf, by simpa using hind⟩

end

section Free

variable {live' : ℕ → List ℕ} {record : SegmentRecord}

section

variable (h : PlacerInvariant bucketSize limit live handed placer)
include h

variable (ho : ∀ k, k ≠ record.fileIndex → live' k = live k)
  (hl : (live record.fileIndex).Perm (record.segment.offset :: live' record.fileIndex))

include ho hl in
theorem updateFreed {file : BucketFile} (hfil : file ∈ placer.files) (hind : file.fileIndex = record.fileIndex) (hne : live' record.fileIndex ≠ []) :
    PlacerInvariant bucketSize limit live' handed (placer.updateFile
      { file with freeSegmentOffsets := record.segment.offset :: file.freeSegmentOffsets,
                  activeSegments := file.activeSegments - 1 }) := by
  have hm := map_fileIndex_updateFile placer
    { file with freeSegmentOffsets := record.segment.offset :: file.freeSegmentOffsets,
                activeSegments := file.activeSegments - 1 }
  refine ⟨h.bucketSize_eq, h.limit_eq, hm ▸ h.indices, h.fresh, fun f hf => ?_, fun f hf => ?_, fun k => ?_⟩
  · obtain ⟨g, hg, rfl⟩ := mem_map.mp hf
    split
    · exact h.lt_next file hfil
    · exact h.lt_next g hg
  · obtain ⟨g, hg, rfl⟩ := mem_map.mp hf
    split
    case isTrue =>
      show FileInvariant bucketSize limit (live' file.fileIndex) (handed file.fileIndex) _
      have hfi := h.files file hfil
      rw [hind] at hfi
      rw [congrArg live' hind, congrArg handed hind]
      exact hfi.freeSlot hl
    case isFalse hgk =>
      have hgk' : g.fileIndex ≠ record.fileIndex := fun heq => hgk (heq.trans hind.symm)
      rw [ho _ hgk']
      exact h.files g hg
  · rw [← mem_map, hm, mem_map]
    by_cases hk : k = record.fileIndex
    · subst hk
      exact iff_of_true hne ⟨file, hfil, hind⟩
    · rw [ho k hk]
      exact h.kept k

include ho in
theorem deleteFreed (hn : live' record.fileIndex = []) : PlacerInvariant bucketSize limit live' handed
      { placer with files := placer.files.filter (·.fileIndex != record.fileIndex) } := by
  have hm : ∀ f, f ∈ placer.files.filter (·.fileIndex != record.fileIndex) ↔
      f ∈ placer.files ∧ f.fileIndex ≠ record.fileIndex := by
    intro f
    rw [mem_filter, bne_iff_ne]
  refine ⟨h.bucketSize_eq, h.limit_eq, h.indices.sublist (filter_sublist.map _), h.fresh, fun f hf => ?_,
    fun f hf => ?_, fun k => ?_⟩
  · exact h.lt_next f ((hm f).mp hf).1
  · obtain ⟨hf, hne⟩ := (hm f).mp hf
    rw [ho _ hne]
    exact h.files f hf
  · constructor
    · intro hk
      have hne : k ≠ record.fileIndex := fun heq => hk (heq ▸ hn)
      rw [ho k hne] at hk
      obtain ⟨f, hf, hfk⟩ := (h.kept k).mp hk
      exact ⟨f, (hm f).mpr ⟨hf, hfk ▸ hne⟩, hfk⟩
    · rintro ⟨f, hf, rfl⟩
      obtain ⟨hf, hne⟩ := (hm f).mp hf
      rw [ho _ hne]
      exact (h.kept _).mpr ⟨f, hf, rfl⟩

include ho hl in
/-- A freed slot goes back to its file, or the file goes with its last slot. -/
theorem free : (placer.free record).1 = {} ∧ PlacerInvariant bucketSize limit live' handed (placer.free record).2 := by
  have hne : live record.fileIndex ≠ [] := by
    intro hn
    rw [hn] at hl
    exact absurd hl.length_eq (by simp)
  obtain ⟨file, hfi, hf, hind⟩ := h.findFileByIndex hne
  have ha : file.activeSegments = (live' record.fileIndex).length + 1 := by
    rw [(h.files file hf).active, hind, hl.length_eq, length_cons]
  rw [BucketPlacer.free, hfi]
  simp only [ha, Nat.add_sub_cancel, Nat.succ_ne_zero, if_false]
  by_cases hn : live' record.fileIndex = []
  · rw [if_pos (by rw [hn]; rfl)]
    exact ⟨rfl, h.deleteFreed ho hn⟩
  · rw [if_neg (by rwa [length_eq_zero_iff])]
    refine ⟨rfl, ?_⟩
    have hfr := h.updateFreed ho hl hf hind hn
    rw [ha, Nat.add_sub_cancel] at hfr
    exact hfr

end

end Free

end PlacerInvariant

def SegmentRecord.inFile (bucketIndex fileIndex : ℕ) (record : SegmentRecord) : Bool :=
  record.segment.kind == .bucket && record.bucketIndex == bucketIndex && record.fileIndex == fileIndex

def offsetsIn (records : List SegmentRecord) (bucketIndex fileIndex : ℕ) : List ℕ :=
  (records.filter (·.inFile bucketIndex fileIndex)).map (·.segment.offset)

def placements (history : List (Call × Answer)) : List SegmentRecord :=
  history.filterMap fun entry =>
    match entry.2 with
    | .allocated allocation => if allocation.result.error = .ok then some allocation.record else none
    | .freed _ => none

def isFreeOf (id : ℕ) (entry : Call × Answer) : Bool :=
  match entry with
  | (.free segment, .freed result) => segment.id == id && result.error == .ok
  | _ => false

theorem placements_append (history : List (Call × Answer)) (entry : Call × Answer) :
    placements (history ++ [entry]) = placements history ++ placements [entry] := by
  simp [placements, filterMap_append]

theorem placements_freed (history : List (Call × Answer)) (segment : FileSegment) (result : FileFreeResult) :
    placements (history ++ [(.free segment, .freed result)]) = placements history :=
  (placements_append _ _).trans (append_nil _)

variable {record : SegmentRecord}

theorem offsetsIn_insert (before after : List SegmentRecord) (hki : record.segment.kind = .bucket) (bucketIndex : ℕ) :
    offsetsIn (before ++ record :: after) bucketIndex = if bucketIndex = record.bucketIndex then
        update (offsetsIn (before ++ after) bucketIndex) record.fileIndex
          (offsetsIn before bucketIndex record.fileIndex ++ record.segment.offset :: offsetsIn after bucketIndex record.fileIndex)
      else offsetsIn (before ++ after) bucketIndex := by
  funext k
  split
  case isTrue h =>
    subst h
    by_cases hk : k = record.fileIndex
    · subst hk
      simp [offsetsIn, SegmentRecord.inFile, hki]
    · rw [update_of_ne hk]
      simp [offsetsIn, SegmentRecord.inFile, hki, Ne.symm hk]
  case isFalse h => simp [offsetsIn, SegmentRecord.inFile, hki, Ne.symm h]

/-- The registry and the history of the calls: the ids of the segments are distinct, and a
segment is live until it is freed. -/
structure RegistryInvariant (history : List (Call × Answer)) (registry : SegmentRegistry) : Prop where
  ids_lt : ∀ record ∈ placements history, record.segment.id < registry.nextSegmentId
  placed : ((placements history).map (·.segment.id)).Nodup
  live : ∀ record ∈ registry.records, record ∈ placements history
  once : ∀ id, history.countP (isFreeOf id) + (registry.records.map (·.segment.id)).count id =
    ((placements history).map (·.segment.id)).count id

namespace RegistryInvariant

variable {history : List (Call × Answer)} {registry : SegmentRegistry}

theorem created : RegistryInvariant [] {} where
  ids_lt := by simp [placements]
  placed := by simp [placements]
  live := by simp
  once := by simp [placements]

section

variable (h : RegistryInvariant history registry)
include h

theorem ids : (registry.records.map (·.segment.id)).Nodup := by
  rw [nodup_iff_count_le_one]
  intro id
  have honc := h.once id
  have hp := nodup_iff_count_le_one.mp h.placed id
  omega

theorem skip {entry : Call × Answer} {next : ℕ} (hp : placements [entry] = [])
    (hf : ∀ id, isFreeOf id entry = false) (hn : registry.nextSegmentId ≤ next) :
    RegistryInvariant (history ++ [entry]) { registry with nextSegmentId := next } := by
  have ha := placements_append history entry
  rw [hp, append_nil] at ha
  refine ⟨?_, ?_, ?_, fun id => ?_⟩
  · intro record hr
    exact lt_of_lt_of_le (h.ids_lt record (ha ▸ hr)) hn
  · rw [ha]
    exact h.placed
  · rw [ha]
    exact h.live
  · rw [ha, countP_append, countP_singleton, hf]
    exact h.once id

theorem register {c : Call} {allocation : FileAllocation} (hok : allocation.result.error = .ok)
    (hid : allocation.record.segment.id = registry.nextSegmentId) :
    RegistryInvariant (history ++ [(c, .allocated allocation)])
      { nextSegmentId := registry.nextSegmentId + 1, records := allocation.record :: registry.records } := by
  have ha := placements_append history (c, .allocated allocation)
  rw [show placements [(c, .allocated allocation)] = [allocation.record] by simp [placements, hok]] at ha
  refine ⟨?_, ?_, ?_, fun id => ?_⟩
  · rw [ha]
    intro record hr
    rcases mem_append.mp hr with hold | hn
    · exact Nat.lt_succ_of_lt (h.ids_lt record hold)
    · rw [mem_singleton.mp hn, hid]
      exact Nat.lt_succ_self _
  · rw [ha, map_append, nodup_append']
    refine ⟨h.placed, nodup_singleton _, fun id hold hn => ?_⟩
    obtain ⟨record, hr, rfl⟩ := mem_map.mp hold
    have hlt := h.ids_lt record hr
    have heq : record.segment.id = allocation.record.segment.id := by simpa using hn
    omega
  · rw [ha]
    intro record hr
    rcases mem_cons.mp hr with rfl | hold
    · exact mem_append_right _ (mem_singleton_self _)
    · exact mem_append_left _ (h.live record hold)
  · have hc : isFreeOf id (c, .allocated allocation) = false := by cases c <;> rfl
    have honc := h.once id
    rw [ha, countP_append, countP_singleton, hc, map_append, count_append,
      map_cons, map_cons, map_nil, count_cons, count_cons, count_nil]
    simp only [Bool.false_eq_true, if_false]
    omega

theorem register_eq (hid : record.segment.id = registry.nextSegmentId) :
    { registry with nextSegmentId := registry.nextSegmentId + 1 : SegmentRegistry }.register record =
      { nextSegmentId := registry.nextSegmentId + 1, records := record :: registry.records } := by
  have hf : registry.records.any (·.segment.id == record.segment.id) = false := by
    rw [any_eq_false]
    intro live hl
    have hlt := h.ids_lt live (h.live live hl)
    simp only [beq_iff_eq]
    omega
  rw [SegmentRegistry.register, if_neg (by simp [hf])]

end

theorem take_none {id : ℕ} (hid : ∀ record ∈ registry.records, record.segment.id ≠ id) : registry.take id = none := by
  have hf : registry.records.find? (·.segment.id == id) = none := by
    rw [find?_eq_none]
    intro record hr
    simpa using hid record hr
  rw [SegmentRegistry.take, hf]

theorem take_some (h : RegistryInvariant history registry) (hre : record ∈ registry.records) :
    ∃ rest, registry.take record.segment.id = some (record, { registry with records := rest }) ∧
      registry.records.Perm (record :: rest) ∧
      ∀ p : SegmentRecord → Bool, p record = false → rest.filter p = registry.records.filter p := by
  refine ⟨registry.records.filter (·.segment.id != record.segment.id), ?_, ?_, ?_⟩
  · have hfi : registry.records.find? (·.segment.id == record.segment.id) = some record := by
      cases hf : registry.records.find? (·.segment.id == record.segment.id) with
      | none => simpa using find?_eq_none.mp hf record hre
      | some found =>
        have hid := find?_some hf
        rw [inj_on_of_nodup_map h.ids (mem_of_find?_eq_some hf) hre (by simpa using hid)]
    rw [SegmentRegistry.take, hfi]
  · have hn : registry.records.Nodup := h.ids.of_map _
    have hera := perm_cons_erase hre
    rw [hn.erase_eq_filter] at hera
    have hfil : registry.records.filter (· != record) =
        registry.records.filter (·.segment.id != record.segment.id) := by
      refine filter_congr fun r hr => ?_
      rw [Bool.eq_iff_iff, bne_iff_ne, bne_iff_ne, not_iff_not]
      exact ⟨fun heq => heq ▸ rfl, fun heq => inj_on_of_nodup_map h.ids hr hre heq⟩
    rwa [hfil] at hera
  · intro p hp
    rw [filter_filter]
    refine filter_congr fun r hr => ?_
    by_cases hid : r.segment.id = record.segment.id
    · rw [inj_on_of_nodup_map h.ids hr hre hid, hp, Bool.false_and]
    · rw [bne_iff_ne.mpr hid, Bool.and_true]

theorem freed (h : RegistryInvariant history registry) {segment : FileSegment}
    {rest : List SegmentRecord} (hp : registry.records.Perm (record :: rest))
    (hid : segment.id = record.segment.id) :
    RegistryInvariant (history ++ [(.free segment, .freed {})]) { registry with records := rest } := by
  have ha := placements_freed history segment {}
  refine ⟨?_, ?_, ?_, fun id => ?_⟩
  · rw [ha]
    exact h.ids_lt
  · rw [ha]
    exact h.placed
  · rw [ha]
    intro r hr
    exact h.live r (hp.mem_iff.mpr (mem_cons_of_mem _ hr))
  · have honc := h.once id
    rw [((hp.map (·.segment.id)).count_eq id), map_cons, count_cons] at honc
    rw [ha, countP_append, countP_singleton]
    simp only [isFreeOf, hid, beq_self_eq_true, Bool.and_true]
    omega

end RegistryInvariant

end Bolt.FileSegments
