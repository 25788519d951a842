import Bolt.RadixSort.SorterBuckets
import Bolt.RadixSort.SorterRuns

/-!
# The run sorter sorts

What the sorter needs of a kernel is stated as laws: the order is a strict weak order
that the radix bytes decide, and the suffix order completes it. Under the laws every
path through the sorter, by induction on the bytes that are left, ends with the records
in order.
-/

namespace Bolt.RadixSort

open Lib Lib.Buckets Lib.Ranges Lib.Sorting List

variable {α : Type}

def Agree (K : RadixSortRunSorterKernel α) (offset : ℕ) (left right : α) : Prop :=
  ∀ i, i < offset → K.radixByte i left = K.radixByte i right

structure KernelLaws (K : RadixSortRunSorterKernel α) : Prop where
  less_order : StrictWeakOrder K.less
  byte_decides : ∀ offset, offset < K.radixByteLimit → ∀ left right, Agree K offset left right →
    K.radixByte offset left < K.radixByte offset right → K.less right left = false
  suffix_order : K.completePrefixRadix = true → StrictWeakOrder K.suffixLess
  suffix_decides : K.completePrefixRadix = true → ∀ left right, Agree K K.radixByteLimit left right →
    K.suffixLess left right = K.less left right
  bytes_decide : K.requiresFullKeyFallback = false → ∀ left right, Agree K K.radixByteLimit left right →
    K.less left right = false

/-- Records that are compared may be skipped at a byte only where they agree on it. -/
def SkipsSound (K : RadixSortRunSorterKernel α) (range : List α) : Prop :=
  ∀ offset, offset < K.radixByteLimit → byteIsSkippable K offset = true →
    ∀ left ∈ range, ∀ right ∈ range, K.radixByte offset left = K.radixByte offset right

section Sorts

variable {S : ComparisonSort} {M : ComparisonMerge} {K : RadixSortRunSorterKernel α}
variable {sortNext : ℕ → List α → Option (List α)} {range : List α}

theorem fullSort_sorts (hK : KernelLaws K) (part : List α) : Sorts K.less (fullSort S M K) part := by
  rw [Sorts, fullSort]
  split
  · exact ⟨part, rfl, .refl _, sorted_of_length_le_one (by omega)⟩
  · split
    · exact S.sorts hK.less_order part
    · exact detectRunsAndSort_sorts M hK.less_order fun part _ => S.sorts hK.less_order part

theorem finishRadixSort_sorts (hK : KernelLaws K) {part : List α}
    (ha : ∀ left ∈ part, ∀ right ∈ part, Agree K K.radixByteLimit left right) :
    Sorts K.less (finishRadixSort S M K) part := by
  rw [Sorts, finishRadixSort]
  by_cases hc : K.completePrefixRadix = true
  · rw [if_pos hc]
    have hp := S.perm K.suffixLess part (hK.suffix_order hc)
    refine ⟨_, rfl, hp, (S.sorted K.suffixLess part (hK.suffix_order hc)).imp_of_mem ?_⟩
    intro left right hl hr hs
    rwa [← hK.suffix_decides hc right left
      (ha right (hp.subset hr) left (hp.subset hl))]
  · rw [if_neg hc]
    by_cases hf : K.requiresFullKeyFallback = true
    · rw [if_pos hf]
      exact fullSort_sorts hK part
    · rw [if_neg hf]
      refine ⟨part, rfl, .refl _, pairwise_of_forall_mem_list fun left hl right hr => ?_⟩
      exact hK.bytes_decide (by simpa using hf) right left (ha right hr left hl)

section Buckets

variable {b : α → ℕ} {less : α → α → Bool} {part records : List α}

/-- Regions in order, one after another, are in order. -/
theorem sorted_of_regions (hp : records.Perm part) {buckets : ℕ} (hb : ∀ x ∈ part, b x < buckets)
    (hpu : ∀ k, ∀ x ∈ slice records (start b part k) (start b part (k + 1)), b x = k)
    (hs : ∀ k, Sorted less (slice records (start b part k) (start b part (k + 1))))
    (hc : ∀ left ∈ part, ∀ right ∈ part, b left < b right → less right left = false) :
    Sorted less records := by
  have hr : ∀ m, Sorted less (slice records 0 (start b part m)) ∧
      ∀ x ∈ slice records 0 (start b part m), b x < m := by
    intro m
    induction m with
    | zero => simp [slice, Sorted]
    | succ m ih =>
      rw [← slice_append (Nat.zero_le _) (start_mono part (Nat.le_succ m)) records]
      refine ⟨sorted_append_of_forall ih.1 (hs m) fun left hl right hri => ?_, fun x hx => ?_⟩
      · refine hc left (hp.subset (mem_of_mem_slice hl)) right (hp.subset (mem_of_mem_slice hri)) ?_
        rw [hpu m right hri]
        exact ih.2 left hl
      · rcases mem_append.mp hx with hx | hx
        · exact Nat.lt_succ_of_lt (ih.2 x hx)
        · rw [hpu m x hx]
          exact Nat.lt_succ_self m
  have hal := (hr buckets).1
  rwa [start_eq_length hb, ← hp.length_eq, slice_zero_length] at hal

theorem bucket_of_mem_region (hpe : records.Perm part) (hd : Distributed b records) {k : ℕ} {x : α}
    (hx : x ∈ slice records (start b part k) (start b part (k + 1))) : b x = k := by
  obtain ⟨p, hp⟩ := mem_iff_getElem?.mp hx
  rw [getElem?_slice] at hp
  by_cases hlt : p < start b part (k + 1) - start b part k
  · rw [if_pos hlt] at hp
    obtain ⟨y, hy, hb⟩ := hd k (start b part k + p) (by rw [start_perm hpe]; omega)
      (by rw [start_perm hpe]; omega)
    rw [← Option.some.inj (hp.symm.trans hy)] at hb
    exact hb
  · rw [if_neg hlt] at hp
    cases hp

theorem regions_disjoint (part : List α) {ids : List ℕ} (hids : ids.Nodup) :
    (ids.map (region b part)).Pairwise fun r s => r.2 ≤ s.1 ∨ s.2 ≤ r.1 := by
  rw [pairwise_map]
  refine hids.imp fun {k m} hne => ?_
  rcases Nat.lt_or_gt_of_ne hne with h | h
  · exact .inl (start_mono part h)
  · exact .inr (start_mono part h)

theorem slice_region_of_not_mem (hb : ∀ x ∈ part, b x < 256) (l : List α) {k : ℕ} (hk : k ∉ occurring b part 256) :
    slice l (start b part k) (start b part (k + 1)) = [] := by
  have hno : ¬start b part k < start b part (k + 1) := fun h => hk (mem_occurring_of_lt hb h)
  rw [slice, show start b part (k + 1) - start b part k = 0 by omega, take_zero]

/-- Records in their buckets are sorted once each bucket is. -/
theorem sortRegions_sorts (hp : records.Perm part) (hd : Distributed b records)
    (hb : ∀ x ∈ part, b x < 256) {ids : List ℕ} (hids : ids.Perm (occurring b part 256))
    (hc : ∀ left ∈ part, ∀ right ∈ part, b left < b right → less right left = false)
    {f : List α → Option (List α)}
    (hf : ∀ k bucketPart, bucketPart ⊆ part → (∀ x ∈ bucketPart, b x = k) → Sorts less f bucketPart) :
    ∃ out, (ids.map (region b part)).foldlM (fun l r => onRange f l r.1 r.2) records = some out ∧
      out.Perm part ∧ Sorted less out := by
  obtain ⟨out, hou, houtPerm, hregi, -⟩ := foldlM_onRange
    (regions_disjoint part (hids.nodup_iff.mpr (occurring_nodup part 256)))
    (fun r hr => by
      obtain ⟨k, -, rfl⟩ := mem_map.mp hr
      have hl := start_le_length (b := b) part (k + 1)
      rw [← hp.length_eq] at hl
      exact ⟨start_mono part (Nat.le_succ k), hl⟩)
    (fun r hr => by
      obtain ⟨k, -, rfl⟩ := mem_map.mp hr
      exact hf k _ (fun x hx => hp.subset (mem_of_mem_slice hx))
        fun x hx => bucket_of_mem_region hp hd hx)
  have hre : ∀ k ∈ occurring b part 256,
      (slice out (start b part k) (start b part (k + 1))).Perm
        (slice records (start b part k) (start b part (k + 1))) ∧
      Sorted less (slice out (start b part k) (start b part (k + 1))) := fun k hk =>
    hregi (region b part k) (mem_map_of_mem (hids.symm.subset hk))
  refine ⟨out, hou, houtPerm.trans hp, sorted_of_regions (houtPerm.trans hp) hb ?_ ?_ hc⟩
  · intro k x hx
    by_cases hk : k ∈ occurring b part 256
    · exact bucket_of_mem_region hp hd ((hre k hk).1.subset hx)
    · rw [slice_region_of_not_mem hb out hk] at hx
      exact absurd hx not_mem_nil
  · intro k
    by_cases hk : k ∈ occurring b part 256
    · exact (hre k hk).2
    · rw [slice_region_of_not_mem hb out hk]
      exact Pairwise.nil

end Buckets

variable {offset : ℕ} {part : List α}

theorem bucketAt_lt (K : RadixSortRunSorterKernel α) (offset : ℕ) (x : α) : bucketAt K offset x < 256 :=
  (K.radixByte offset x).toNat_lt

/-- Records that agree before an offset are ordered by their buckets at it. -/
theorem less_of_bucketAt_lt (hK : KernelLaws K) (ho : offset < K.radixByteLimit)
    (ha : ∀ left ∈ part, ∀ right ∈ part, Agree K offset left right) :
    ∀ left ∈ part, ∀ right ∈ part, bucketAt K offset left < bucketAt K offset right →
      K.less right left = false := fun left hl right hr hlt =>
  hK.byte_decides offset ho left right (ha left hl right hr) (UInt8.lt_iff_toNat_lt.mpr hlt)

/-- Records that agree before an offset and share a bucket at it agree on one byte more. -/
theorem agree_succ {left right : α} (h : Agree K offset left right)
    (hb : K.radixByte offset left = K.radixByte offset right) : Agree K (offset + 1) left right := by
  intro i hi
  rcases Nat.lt_succ_iff_lt_or_eq.mp hi with hi | rfl
  · exact h i hi
  · exact hb

theorem agree_of_bucketAt (ha : ∀ left ∈ part, ∀ right ∈ part, Agree K offset left right) {k : ℕ}
    {bucketPart : List α} (hs : bucketPart ⊆ part) (hk : ∀ x ∈ bucketPart, bucketAt K offset x = k) :
    ∀ left ∈ bucketPart, ∀ right ∈ bucketPart, Agree K (offset + 1) left right :=
  fun left hl right hr => agree_succ (ha left (hs hl) right (hs hr))
    (UInt8.toNat_inj.mp ((hk left hl).trans (hk right hr).symm))

theorem sortBucket_sorts (hK : KernelLaws K) {passes : ℕ} (hn : Sorts K.less (sortNext passes) part) :
    Sorts K.less (sortBucket S M K sortNext passes) part := by
  rw [Sorts, sortBucket]
  split
  · exact ⟨part, rfl, .refl _, sorted_of_length_le_one (by assumption)⟩
  · split
    · exact fullSort_sorts hK part
    · exact hn

theorem distributed_sorts (hK : KernelLaws K) (ho : offset < K.radixByteLimit)
    (ha : ∀ left ∈ part, ∀ right ∈ part, Agree K offset left right) {records : List α} (hp : records.Perm part)
    (hd : Distributed (bucketAt K offset) records) {ids : List ℕ}
    (hids : ids.Perm (occurring (bucketAt K offset) part 256)) {passes : ℕ} (hn : ∀ bucketPart, bucketPart ⊆ part →
      (∀ left ∈ bucketPart, ∀ right ∈ bucketPart, Agree K (offset + 1) left right) →
      Sorts K.less (sortNext passes) bucketPart) :
    ∃ out, (if radixSortEndsAt K offset then some records else (ids.map (region (bucketAt K offset) part)).foldlM
          (fun l r => onRange (sortBucket S M K sortNext passes) l r.1 r.2) records) = some out ∧
      out.Perm part ∧ Sorted K.less out := by
  have hc := less_of_bucketAt_lt hK ho ha
  split_ifs with hen
  · obtain ⟨hf, hli⟩ : K.requiresFullKeyFallback = false ∧ offset + 1 = K.radixByteLimit := by
      simpa [radixSortEndsAt] using hen
    refine ⟨records, rfl, hp, sorted_of_regions hp (fun x _ => bucketAt_lt K offset x)
      (fun k x hx => bucket_of_mem_region hp hd hx) (fun k => ?_) hc⟩
    -- the records of one bucket agree on all bytes
    have hs := agree_of_bucketAt ha (fun x hx => hp.subset (mem_of_mem_slice hx))
      fun x hx => bucket_of_mem_region (k := k) hp hd hx
    rw [hli] at hs
    exact pairwise_of_forall_mem_list fun left hl right hr =>
      hK.bytes_decide hf right left (hs right hr left hl)
  · exact sortRegions_sorts hp hd (fun x _ => bucketAt_lt K offset x) hids hc
      fun k bucketPart hsu hk => sortBucket_sorts hK (hn bucketPart hsu (agree_of_bucketAt ha hsu hk))

theorem occurringBuckets_spec (K : RadixSortRunSorterKernel α) (offset : ℕ) (part : List α) :
    (occurringBuckets K offset part).2 = occurring (bucketAt K offset) part 256 ∧
      ∀ k ∈ occurring (bucketAt K offset) part 256,
        (occurringBuckets K offset part).1 k = part.countP (fun x => decide (bucketAt K offset x = k)) := by
  rw [occurringBuckets]
  split
  · have hc := countOccupied_counts (b := bucketAt K offset) K.uninitialized part
    refine ⟨hc.buckets_eq, fun k hk => hc.counts_eq k ((hc.isSet_iff k).mpr ?_)⟩
    have hoc := (mem_occurring.mp hk).2
    rw [start_succ] at hoc
    omega
  · refine ⟨filter_congr fun k hk => ?_, fun k hk => countBuckets_getD part (lt_of_mem_occurring hk)⟩
    rw [countBuckets_getD part (mem_range.mp hk)]

section

variable (hK : KernelLaws K) (ho : offset < K.radixByteLimit)
  (ha : ∀ left ∈ part, ∀ right ∈ part, Agree K offset left right) (passes : ℕ)
  (hn : ∀ passes bucketPart, bucketPart ⊆ part →
    (∀ left ∈ bucketPart, ∀ right ∈ bucketPart, Agree K (offset + 1) left right) → Sorts K.less (sortNext passes) bucketPart)
include hK ho ha passes hn

/-- The pass in place sorts, if the passes after it do. -/
theorem cycleBucketSort_sorts : Sorts K.less (cycleBucketSort S M K sortNext offset passes) part := by
  obtain ⟨hids, hc⟩ := occurringBuckets_spec K offset part
  obtain ⟨-, hb⟩ := bucketBounds_spec K.uninitialized hc
  obtain ⟨records, hrecords, hp, hd⟩ := cyclePermute_spec (fun x _ => bucketAt_lt K offset x)
    (fun k hk => (hb k hk).1) (fun k hk => (hb k hk).2)
  rw [Sorts, cycleBucketSort]
  dsimp only
  rw [hids]
  split
  · exact fullSort_sorts hK part
  · rw [hrecords, consecutiveRanges_eq fun k hk => (hb k hk).2]
    exact distributed_sorts hK ho ha hp hd (.refl _) (hn _)

theorem largeBucketSort_sorts : Sorts K.less (largeBucketSort S M K sortNext offset passes) part := by
  have hids : ((range 256).filter fun bucket =>
      decide ((countBuckets (bucketAt K offset) part).getD bucket 0 ≠ 0)) =
      occurring (bucketAt K offset) part 256 :=
    filter_congr fun k hk => by rw [countBuckets_getD part (mem_range.mp hk)]
  have hc : ∀ k, k < 256 → (countBuckets (bucketAt K offset) part).getD k 0 =
      part.countP (fun x => decide (bucketAt K offset x = k)) := fun k hk => countBuckets_getD part hk
  obtain ⟨hof, hnex⟩ := partitionOffsets_spec hc
  obtain ⟨⟨records, ids⟩, hrecords, hp, hd, hidsPerm⟩ :=
    largePermute_spec (fun x _ => bucketAt_lt K offset x) hnex hof
  rw [Sorts, largeBucketSort]
  dsimp only
  rw [hids]
  split
  · exact fullSort_sorts hK part
  · have hr : ids.reverse.map
        (partitionRange (partitionOffsets fun k => (countBuckets (bucketAt K offset) part).getD k 0).2.1) =
        ids.reverse.map (region (bucketAt K offset) part) :=
      map_congr_left fun k hk => partitionRange_eq
        (lt_of_mem_occurring (hidsPerm.subset (mem_reverse.mp hk))) hnex
    rw [hrecords]
    simp only [Option.bind_eq_bind, Option.bind_some, hr]
    exact distributed_sorts hK ho ha hp hd ((reverse_perm ids).trans hidsPerm) (hn _)

end

theorem singleRadixBucket_eq (h : singleRadixBucket K offset part = true) :
    ∀ left ∈ part, ∀ right ∈ part, K.radixByte offset left = K.radixByte offset right := by
  cases part with
  | nil => exact fun left hl => absurd hl not_mem_nil
  | cons first rest =>
    have hal : ∀ x ∈ first :: rest, K.radixByte offset x = K.radixByte offset first := by
      intro x hx
      rcases mem_cons.mp hx with rfl | hx
      · rfl
      · exact beq_iff_eq.mp (all_eq_true.mp h x hx)
    exact fun left hl right hr => (hal left hl).trans (hal right hr).symm

/-- The passes from any byte on sort what agrees before it. -/
theorem sortRadixByte_sorts (hK : KernelLaws K) (hsk : SkipsSound K range) {bytesLeft : ℕ}
    (hby : bytesLeft ≤ K.radixByteLimit) (passes : ℕ) (hp : part ⊆ range)
    (ha : ∀ left ∈ part, ∀ right ∈ part, Agree K (K.radixByteLimit - bytesLeft) left right) :
    Sorts K.less (sortRadixByte S M K bytesLeft passes) part := by
  induction bytesLeft generalizing passes part with
  | zero => exact finishRadixSort_sorts hK ha
  | succ bytesLeft ih =>
    have ho : K.radixByteLimit - (bytesLeft + 1) < K.radixByteLimit := by omega
    have hnex : K.radixByteLimit - (bytesLeft + 1) + 1 = K.radixByteLimit - bytesLeft := by omega
    -- agreement on this byte too leaves the rest of the bytes
    have hn : ∀ passes bucketPart, bucketPart ⊆ part →
        (∀ left ∈ bucketPart, ∀ right ∈ bucketPart, Agree K (K.radixByteLimit - (bytesLeft + 1) + 1) left right) →
        Sorts K.less (sortRadixByte S M K bytesLeft passes) bucketPart := by
      intro passes bucketPart hsu hbuc
      rw [hnex] at hbuc
      exact ih (by omega) passes (Subset.trans hsu hp) hbuc
    rw [Sorts, sortRadixByte]
    split
    · rename_i hs
      exact hn passes part (Subset.refl _) fun left hl right hr =>
        agree_succ (ha left hl right hr) (hsk _ ho hs left (hp hl) right (hp hr))
    · split
      · rename_i hsi
        have hb := singleRadixBucket_eq (Bool.and_eq_true_iff.mp hsi).2
        exact hn passes part (Subset.refl _) fun left hl right hr =>
          agree_succ (ha left hl right hr) (hb left hl right hr)
      · split
        · exact cycleBucketSort_sorts hK ho ha passes hn
        · exact largeBucketSort_sorts hK ho ha passes hn

theorem radixSort_sorts (hK : KernelLaws K) (hs : SkipsSound K range) (hp : part ⊆ range) :
    Sorts K.less (radixSort S M K) part := by
  rw [Sorts, radixSort]
  split
  · exact ⟨part, rfl, .refl _, sorted_of_length_le_one (by omega)⟩
  · split
    · exact fullSort_sorts hK part
    · refine sortRadixByte_sorts hK hs (Nat.le_refl _) 0 hp fun left _ right _ i hi => ?_
      exact absurd hi (by omega)

/-- The whole sorter sorts. -/
theorem adaptiveSort_sorts (S : ComparisonSort) (M : ComparisonMerge) (hK : KernelLaws K)
    (hs : SkipsSound K range) : Sorts K.less (adaptiveSort S M K) range :=
  detectRunsAndSort_sorts M hK.less_order fun _ hp => radixSort_sorts hK hs hp

end Sorts

end Bolt.RadixSort
