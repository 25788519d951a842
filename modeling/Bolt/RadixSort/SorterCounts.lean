import Bolt.RadixSort.Sorter

/-!
# The counters of the bucket sorts

Both ways of counting, with zeroed counters and with occupancy words over counters that
hold anything, give the number of records of each bucket and the buckets that occur.
The offsets computed from them are where the regions of the buckets start and end.
-/

namespace Bolt.RadixSort

open Lib Lib.Buckets Lib.Ranges Function BitVec List Occupancy

variable {α : Type} {b : α → ℕ}
variable {range : List α} {k n : ℕ} {counts : ℕ → ℕ}

def occurring (b : α → ℕ) (range : List α) (buckets : ℕ) : List ℕ :=
  (List.range buckets).filter fun k => range.countP (fun x => decide (b x = k)) ≠ 0

theorem mem_occurring {buckets : ℕ} :
    k ∈ occurring b range buckets ↔ k < buckets ∧ start b range k < start b range (k + 1) := by
  rw [occurring, mem_filter, mem_range, start_succ, decide_eq_true_eq]
  omega

theorem mem_occurring_of_lt {buckets : ℕ} (hb : ∀ x ∈ range, b x < buckets)
    (hk : start b range k < start b range (k + 1)) : k ∈ occurring b range buckets := by
  refine mem_occurring.mpr ⟨?_, hk⟩
  rw [start_succ] at hk
  obtain ⟨x, hx, hbx⟩ := countP_pos_iff.mp (show 0 < range.countP (fun x => decide (b x = k)) by omega)
  rw [← of_decide_eq_true hbx]
  exact hb x hx

theorem occurring_nodup (range : List α) (buckets : ℕ) : (occurring b range buckets).Nodup :=
  nodup_range.filter _

theorem occurring_pairwise (range : List α) (buckets : ℕ) : (occurring b range buckets).Pairwise (· < ·) :=
  pairwise_lt_range.filter _

private theorem getD_modify (counts : List ℕ) (k m : ℕ) (hk : k < counts.length) :
    (counts.modify m (· + 1)).getD k 0 = counts.getD k 0 + if m = k then 1 else 0 := by
  rw [getD_eq_getElem?_getD, getD_eq_getElem?_getD, getElem?_modify, List.getElem?_eq_getElem hk]
  by_cases h : m = k
  · simp [h]
  · simp [h]

private theorem foldl_modify (range : List α) {counts : List ℕ} (hk : k < counts.length) :
    (range.foldl (fun counts x => counts.modify (b x) (· + 1)) counts).getD k 0 =
      counts.getD k 0 + range.countP (fun x => decide (b x = k)) := by
  induction range generalizing counts with
  | nil => rfl
  | cons x range ih =>
    rw [foldl_cons, ih (by rwa [length_modify]), getD_modify counts k (b x) hk, countP_cons]
    by_cases h : b x = k
    · simp [h]
      omega
    · simp [h]

theorem countBuckets_getD (range : List α) (hk : k < 256) :
    (countBuckets b range).getD k 0 = range.countP (fun x => decide (b x = k)) := by
  rw [countBuckets, foldl_modify range (by rwa [length_replicate]), getD_eq_getElem?_getD,
    getElem?_replicate, if_pos hk, Option.getD_some, Nat.zero_add]

def Occupancy.isSet (o : Occupancy) (k : ℕ) : Bool := (o.occupied (k / 64)).getLsbD (k % 64)

/-- The counters that are set hold the number of records of their bucket. -/
structure Occupancy.Counts (o : Occupancy) (b : α → ℕ) (range : List α) : Prop where
  isSet_iff : ∀ k, o.isSet k = true ↔ range.countP (fun x => decide (b x = k)) ≠ 0
  counts_eq : ∀ k, o.isSet k = true → o.counts k = range.countP (fun x => decide (b x = k))

/-- The test of the source reads the bit of the bucket. -/
theorem and_mask_eq_zero {w : ℕ} (word : BitVec w) {bit : ℕ} (hb : bit < w) :
    word &&& 1#w <<< bit = 0#w ↔ word.getLsbD bit = false := by
  constructor
  · intro h
    have ha := congrArg (fun v : BitVec w => v.getLsbD bit) h
    simpa [hb, Nat.zero_lt_of_lt hb] using ha
  · intro h
    refine eq_of_getLsbD_eq fun i hi => ?_
    by_cases hib : i = bit
    · subst hib
      simp [h]
    · by_cases hle : i < bit
      · simp [hle]
      · simp [show i - bit ≠ 0 by omega]

private theorem isSet_update (o : Occupancy) (counts : ℕ → ℕ) (m k : ℕ) :
    isSet ⟨counts, update o.occupied (m / 64) (o.occupied (m / 64) ||| 1#64 <<< (m % 64))⟩ k =
      (o.isSet k || decide (k = m)) := by
  rw [isSet, isSet]
  dsimp only
  by_cases hw : k / 64 = m / 64
  · rw [hw, update_self, getLsbD_or, getLsbD_shiftLeft, getLsbD_one]
    congr 1
    have hlt : k % 64 < 64 := Nat.mod_lt k (by decide)
    by_cases hkm : k = m
    · subst hkm
      simp [hlt]
    · by_cases hle : k % 64 < m % 64
      · simp [hle, hkm]
      · simp [hkm, show k % 64 - m % 64 ≠ 0 by omega]
  · rw [update_of_ne hw]
    have hkm : k ≠ m := fun h => hw (by rw [h])
    simp [hkm]

theorem Occupancy.Counts.add {o : Occupancy} (h : o.Counts b range) (x : α) : (o.add (b x)).Counts b (range ++ [x]) := by
  have hco : ∀ k, (range ++ [x]).countP (fun y => decide (b y = k)) =
      range.countP (fun y => decide (b y = k)) + if b x = k then 1 else 0 := fun k => by
    simp
  rw [Occupancy.add]
  have ht := and_mask_eq_zero (o.occupied (b x / 64)) (Nat.mod_lt (b x) (by decide))
  by_cases hc : o.occupied (b x / 64) &&& 1#64 <<< (b x % 64) = 0#64
  · -- the counter is set for the first time
    have hu : o.isSet (b x) = false := ht.mp hc
    have hz : range.countP (fun y => decide (b y = b x)) = 0 := by
      by_contra hne
      rw [(h.isSet_iff _).mpr hne] at hu
      cases hu
    simp only [if_pos hc]
    constructor
    · intro k
      rw [isSet_update, hco, Bool.or_eq_true, h.isSet_iff, decide_eq_true_eq]
      by_cases hk : b x = k
      · simp [hk]
      · simp [hk, Ne.symm hk]
    · intro k hs
      rw [isSet_update, Bool.or_eq_true, decide_eq_true_eq] at hs
      rw [hco]
      dsimp only
      by_cases hk : k = b x
      · subst hk
        rw [update_self, hz, if_pos rfl]
      · rw [update_of_ne hk, if_neg (Ne.symm hk), Nat.add_zero]
        exact h.counts_eq k (hs.resolve_right hk)
  · have hs : o.isSet (b x) = true := by
      rw [ht] at hc
      simpa [isSet] using hc
    simp only [if_neg hc]
    have hsa : ∀ k, isSet ⟨update o.counts (b x) (o.counts (b x) + 1), o.occupied⟩ k =
      o.isSet k := fun _ => rfl
    constructor
    · intro k
      rw [hsa, h.isSet_iff, hco]
      by_cases hk : b x = k
      · subst hk
        have := (h.isSet_iff _).mp hs
        omega
      · simp [hk]
    · intro k hk
      rw [hco]
      dsimp only
      by_cases hkx : k = b x
      · subst hkx
        rw [update_self, h.counts_eq _ hs, if_pos rfl]
      · rw [update_of_ne hkx, if_neg (Ne.symm hkx), Nat.add_zero]
        exact h.counts_eq k hk

theorem countOccupied_counts (uninitialized : ℕ → ℕ) (range : List α) :
    (countOccupied uninitialized b range).Counts b range := by
  rw [countOccupied]
  induction range using reverseRecOn with
  | nil => exact ⟨fun k => by simp [isSet], fun k hk => by simp [isSet] at hk⟩
  | append_singleton range x ih =>
    rw [foldl_append]
    exact ih.add x

/-! ## The buckets of the occupancy words -/

/-- Taking off the lowest bit takes the first of the set positions. -/
private theorem filter_range_and_sub_one {word : BitVec 64} (hw : word ≠ 0#64) : (List.range 64).filter word.getLsbD =
      word.ctz.toNat :: (List.range 64).filter (word &&& (word - 1#64)).getLsbD := by
  have hcl := Bits.getLsbD_and_sub_one hw
  have hs : word.getLsbD word.ctz.toNat = true := getLsbD_true_ctz_of_ne_zero hw
  have hl : ∀ i, i < word.ctz.toNat → word.getLsbD i = false := fun i hi => getLsbD_false_of_lt_ctz hi
  have hlt : word.ctz.toNat < 64 := ctz_lt_iff_ne_zero.mpr hw
  generalize (word &&& (word - 1#64)) = cleared at hcl ⊢
  generalize word.ctz.toNat = c at *
  have hsp : range 64 = range c ++ (c :: (range (63 - c)).map (c + 1 + ·)) := by
    rw [show 64 = c + (63 - c + 1) by omega, range_add, range_succ_eq_map]
    simp [comp_def, Nat.add_comm, Nat.add_left_comm]
  have hn : ∀ v : BitVec 64, (∀ i, i < c → v.getLsbD i = false) → (range c).filter v.getLsbD = [] := by
    intro v hv
    rw [filter_eq_nil_iff]
    intro i hi
    simp [hv i (mem_range.mp hi)]
  have hcle : ∀ i, i < c → cleared.getLsbD i = false := fun i hi => by rw [hcl, hl i hi]; rfl
  have hc : cleared.getLsbD c = false := by rw [hcl]; simp
  rw [hsp, filter_append, filter_append, hn word hl, hn cleared hcle,
    filter_cons, filter_cons, if_pos hs, hc]
  simp only [nil_append, Bool.false_eq_true, if_false]
  congr 1
  refine filter_congr fun i hi => ?_
  obtain ⟨d, -, rfl⟩ := mem_map.mp hi
  rw [hcl]
  simp [show c + 1 + d ≠ c by omega]

theorem setBits_eq {fuel : ℕ} {word : BitVec 64} (h : ((List.range 64).filter word.getLsbD).length ≤ fuel) :
    setBits fuel word = (List.range 64).filter word.getLsbD := by
  induction fuel generalizing word with
  | zero => exact (length_eq_zero_iff.mp (Nat.le_zero.mp h)).symm
  | succ fuel ih =>
    rw [setBits]
    by_cases hw : word = 0#64
    · subst hw
      rw [if_pos rfl]
      symm
      simp
    · rw [filter_range_and_sub_one hw, length_cons] at h
      rw [if_neg hw, filter_range_and_sub_one hw, ih (by omega)]

private theorem flatMap_filter_range (p : ℕ → ℕ → Bool) (words width : ℕ) (hw : 0 < width) :
    ((List.range words).flatMap fun w => ((List.range width).filter (p w)).map (w * width + ·)) =
      (List.range (words * width)).filter fun k => p (k / width) (k % width) := by
  induction words with
  | zero => simp
  | succ words ih =>
    rw [range_succ, flatMap_append, ih, Nat.succ_mul, range_add, filter_append]
    congr 1
    rw [flatMap_singleton, filter_map]
    congr 1
    refine filter_congr fun i hi => ?_
    have hi := mem_range.mp hi
    rw [comp_apply, Nat.mul_comm words width, Nat.mul_add_div hw, Nat.div_eq_of_lt hi, Nat.add_zero,
      Nat.mul_add_mod, Nat.mod_eq_of_lt hi]

theorem Occupancy.Counts.buckets_eq {o : Occupancy} (h : o.Counts b range) : o.buckets = occurring b range 256 := by
  have hb : ∀ w, setBits 64 (o.occupied w) = (List.range 64).filter (o.occupied w).getLsbD := fun w =>
    setBits_eq ((length_filter_le _ _).trans (length_range).le)
  rw [buckets, occurring]
  simp only [hb]
  rw [flatMap_filter_range (fun w i => (o.occupied w).getLsbD i) 4 64 (by decide)]
  refine filter_congr fun k _ => ?_
  have hiff := h.isSet_iff k
  rw [Bool.eq_iff_iff, decide_eq_true_eq]
  exact hiff

def region (b : α → ℕ) (range : List α) (k : ℕ) : ℕ × ℕ := (start b range k, start b range (k + 1))

theorem occurring_succ (range : List α) (n : ℕ) : occurring b range (n + 1) =
      occurring b range n ++ if range.countP (fun x => decide (b x = n)) ≠ 0 then [n] else [] := by
  rw [occurring, range_succ, filter_append, occurring]
  congr 1
  by_cases h : range.countP (fun x => decide (b x = n)) = 0
  · rw [filter_cons, if_neg (by simpa using h), if_neg (by simpa using h), filter_nil]
  · rw [filter_cons, if_pos (by simpa using h), if_pos h, filter_nil]

private theorem start_succ_of_none (h : range.countP (fun x => decide (b x = n)) = 0) :
    start b range (n + 1) = start b range n := by
  rw [start_succ, h, Nat.add_zero]

theorem lt_of_mem_occurring (h : k ∈ occurring b range n) : k < n :=
  (mem_occurring.mp h).1

theorem unplaced_start (range : List α) (n : ℕ) :
    unplaced b range (start b range) (occurring b range n) = start b range n := by
  induction n with
  | zero => exact (start_zero _).symm
  | succ n ih =>
    rw [occurring_succ]
    by_cases hn : range.countP (fun x => decide (b x = n)) = 0
    · rw [if_neg (by simpa using hn), append_nil, start_succ_of_none hn]
      exact ih
    · rw [unplaced] at ih ⊢
      rw [if_pos hn, map_append, sum_append, ih, map_singleton, sum_singleton]
      have hm : start b range n ≤ start b range (n + 1) := start_mono range (Nat.le_succ n)
      omega

/-- The prefix sums of `cycleBucketSort` are the regions of the buckets that occur. -/
theorem bucketBounds_spec (uninitialized : ℕ → ℕ)
    (hc : ∀ k ∈ occurring b range n, counts k = range.countP (fun x => decide (b x = k))) :
    (bucketBounds uninitialized counts (occurring b range n)).2.2 = start b range n ∧
      ∀ k ∈ occurring b range n, (bucketBounds uninitialized counts (occurring b range n)).1 k = start b range k ∧
        (bucketBounds uninitialized counts (occurring b range n)).2.1 k = start b range (k + 1) := by
  induction n with
  | zero => exact ⟨(start_zero _).symm, fun k hk => absurd (lt_of_mem_occurring hk) (Nat.not_lt_zero k)⟩
  | succ n ih =>
    rw [occurring_succ] at hc ⊢
    obtain ⟨ht, hb⟩ := ih fun k hk => hc k (mem_append_left _ hk)
    by_cases hn : range.countP (fun x => decide (b x = n)) = 0
    · rw [if_neg (by simpa using hn), append_nil, start_succ_of_none hn]
      exact ⟨ht, hb⟩
    · rw [if_pos hn] at hc ⊢
      have hco : counts n = range.countP (fun x => decide (b x = n)) := hc n (by simp)
      have hen : start b range n + counts n = start b range (n + 1) := by rw [start_succ, hco]
      unfold bucketBounds at ht hb ⊢
      rw [foldl_append, foldl_cons, foldl_nil]
      dsimp only
      rw [ht, hen]
      refine ⟨rfl, fun k hk => ?_⟩
      rcases mem_append.mp hk with hk | hk
      · have hne : k ≠ n := Nat.ne_of_lt (lt_of_mem_occurring hk)
        rw [update_of_ne hne, update_of_ne hne]
        exact hb k hk
      · obtain rfl := mem_singleton.mp hk
        rw [update_self, update_self]
        exact ⟨rfl, rfl⟩

theorem consecutiveRanges_eq {ends : ℕ → ℕ} (hen : ∀ k ∈ occurring b range n, ends k = start b range (k + 1)) :
    consecutiveRanges ends 0 (occurring b range n) = (occurring b range n).map (region b range) := by
  -- the ranges of a longer list start where those of the shorter list end
  have ha : ∀ ids (first k : ℕ), consecutiveRanges ends first (ids ++ [k]) =
      consecutiveRanges ends first ids ++ [((ids.map ends).getLastD first, ends k)] := by
    intro ids
    induction ids with
    | nil => intro first k; rfl
    | cons id ids ih =>
      intro first k
      rw [List.cons_append, consecutiveRanges, consecutiveRanges, ih, map_cons, getLastD_cons, List.cons_append]
  have hl : ∀ m ≤ n, ((occurring b range m).map ends).getLastD 0 = start b range m := by
    intro m
    induction m with
    | zero => intro _; exact (start_zero _).symm
    | succ m ih =>
      intro hm
      rw [occurring_succ]
      by_cases hn : range.countP (fun x => decide (b x = m)) = 0
      · rw [if_neg (by simpa using hn), append_nil, start_succ_of_none hn]
        exact ih (by omega)
      · rw [if_pos hn, map_append, map_singleton]
        have hme : m ∈ occurring b range n := by
          rw [mem_occurring, start_succ]
          omega
        rw [← hen m hme]
        simp
  induction n with
  | zero => rfl
  | succ n ih =>
    rw [occurring_succ] at hen ⊢
    have hp := ih (fun k hk => hen k (mem_append_left _ hk)) fun m hm => hl m (by omega)
    by_cases hn : range.countP (fun x => decide (b x = n)) = 0
    · rw [if_neg (by simpa using hn), append_nil]
      exact hp
    · rw [if_pos hn] at hen ⊢
      rw [ha, hp, hl n (by omega), hen n (by simp), map_append]
      rfl

private theorem partitionOffsets_fold (n : ℕ)
    (hc : ∀ k, k < n → counts k = range.countP (fun x => decide (b x = k))) :
    ∃ offsets nextOffsets, (List.range n).foldl (fun (s : (ℕ → ℕ) × (ℕ → ℕ) × ℕ) bucket =>
          if counts bucket ≠ 0 then (update s.1 bucket s.2.2, update s.2.1 bucket (s.2.2 + counts bucket),
              s.2.2 + counts bucket)
          else (s.1, update s.2.1 bucket s.2.2, s.2.2))
        (counts, fun _ => 0, 0) = (offsets, nextOffsets, start b range n) ∧
      (∀ k ∈ occurring b range n, offsets k = start b range k) ∧
      ∀ k, k < n → nextOffsets k = start b range (k + 1) := by
  induction n with
  | zero =>
    exact ⟨counts, fun _ => 0, by simp, fun k hk => absurd (lt_of_mem_occurring hk) (Nat.not_lt_zero k),
      fun k hk => absurd hk (Nat.not_lt_zero k)⟩
  | succ n ih =>
    obtain ⟨offsets, nextOffsets, hf, ho, hnext⟩ := ih fun k hk => hc k (by omega)
    have hco := hc n (Nat.lt_succ_self n)
    have hen : start b range n + counts n = start b range (n + 1) := by rw [start_succ, hco]
    rw [range_succ, foldl_append, hf, foldl_cons, foldl_nil, occurring_succ, ← hco]
    have hnex : ∀ k, k < n + 1 →
        update nextOffsets n (start b range (n + 1)) k = start b range (k + 1) := by
      intro k hk
      by_cases hkn : k = n
      · rw [hkn, update_self]
      · rw [update_of_ne hkn]
        exact hnext k (by omega)
    by_cases hn : counts n = 0
    · have hs : start b range n = start b range (n + 1) := by omega
      rw [if_neg (by simpa using hn), if_neg (by simpa using hn), append_nil]
      exact ⟨offsets, _, by rw [hs], ho, hnex⟩
    · rw [if_pos hn, if_pos hn, hen]
      refine ⟨_, _, rfl, fun k hk => ?_, hnex⟩
      rcases mem_append.mp hk with hk | hk
      · rw [update_of_ne (Nat.ne_of_lt (lt_of_mem_occurring hk))]
        exact ho k hk
      · rw [mem_singleton.mp hk, update_self]

theorem partitionOffsets_spec (hc : ∀ k, k < 256 → counts k = range.countP (fun x => decide (b x = k))) :
    (∀ k ∈ occurring b range 256, (partitionOffsets counts).1 k = start b range k) ∧
      ∀ k, k < 256 → (partitionOffsets counts).2.1 k = start b range (k + 1) := by
  obtain ⟨offsets, nextOffsets, hf, ho, hn⟩ := partitionOffsets_fold 256 hc
  have heq : partitionOffsets counts = (offsets, nextOffsets, start b range 256) := hf
  rw [heq]
  exact ⟨ho, hn⟩

theorem partitionRange_eq {nextOffset : ℕ → ℕ} (hk : k < 256)
    (hn : ∀ k, k < 256 → nextOffset k = start b range (k + 1)) :
    partitionRange nextOffset k = region b range k := by
  rw [partitionRange, region, hn k hk]
  cases k with
  | zero => simp
  | succ k => simp [hn k (by omega)]

end Bolt.RadixSort
