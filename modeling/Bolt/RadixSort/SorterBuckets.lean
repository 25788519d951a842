import Bolt.RadixSort.SorterCounts

/-!
# The bucket permutations distribute

Both permutations move a record to the next free position of its bucket until all
buckets but one are full. The positions that are filled are fill marks in the sense of
the bucket library, with the iterator of the cycle loop as the mark of its bucket.
-/

namespace Bolt.RadixSort

open Lib Lib.Buckets Lib.Ranges CycleState Function Scatter

variable {α : Type} {b : α → ℕ}

/-- The fill marks of a cycle state: buckets before the current one are full. -/
def CycleState.mark (b : α → ℕ) (range : List α) (s : CycleState α) (k : ℕ) : ℕ :=
  if k < s.current then start b range (k + 1) else if k = s.current then s.iterator else s.offsets k

structure CycleInvariant (b : α → ℕ) (range : List α) (s : CycleState α) : Prop where
  perm : s.records.Perm range
  placed : Placed b s.records (s.mark b range)
  iterator_lt : s.iterator < start b range (s.current + 1)
  iterator_ge : start b range s.current ≤ s.iterator
  later_ne_nil : s.later ≠ []
  later_sorted : (s.current :: s.later).Pairwise (· < ·)
  later_occurs : ∀ k ∈ s.later, start b range k < start b range (k + 1)
  covers : ∀ k, start b range k < start b range (k + 1) → k ≤ s.current ∨ k ∈ s.later

theorem nextUnfilledBucket_none {offsets ends : ℕ → ℕ} {later : List ℕ} (hl : later ≠ [])
    (h : nextUnfilledBucket offsets ends later = none) :
    ∃ full last, later = full ++ [last] ∧ ∀ k ∈ full, offsets k = ends k := by
  fun_induction nextUnfilledBucket offsets ends later with
  | case1 bucket next later hne => cases h
  | case2 bucket next later heq ih =>
    obtain ⟨full, last, hf, ha⟩ := ih (List.cons_ne_nil _ _) h
    refine ⟨bucket :: full, last, by rw [hf, List.cons_append], ?_⟩
    intro k hk
    rcases List.mem_cons.mp hk with rfl | hk
    · exact not_not.mp heq
    · exact ha k hk
  | case3 later hs =>
    match later, hl, hs with
    | [last], _, _ => exact ⟨[], last, rfl, fun k hk => absurd hk List.not_mem_nil⟩
    | bucket :: next :: later, _, hs => exact absurd rfl (hs bucket next later)

theorem nextUnfilledBucket_some {offsets ends : ℕ → ℕ} {later rest : List ℕ} {current : ℕ}
    (h : nextUnfilledBucket offsets ends later = some (current, rest)) :
    ∃ full, later = full ++ current :: rest ∧ rest ≠ [] ∧ offsets current ≠ ends current ∧
      ∀ k ∈ full, offsets k = ends k := by
  fun_induction nextUnfilledBucket offsets ends later with
  | case1 bucket next later hne =>
    cases h
    exact ⟨[], rfl, List.cons_ne_nil _ _, hne, fun k hk => absurd hk List.not_mem_nil⟩
  | case2 bucket next later heq ih =>
    obtain ⟨full, hf, hr, hne, ha⟩ := ih h
    refine ⟨bucket :: full, by rw [hf, List.cons_append], hr, hne, ?_⟩
    intro k hk
    rcases List.mem_cons.mp hk with rfl | hk
    · exact not_not.mp heq
    · exact ha k hk
  | case3 later hs => cases h

section Cycle

variable {range : List α} {s : CycleState α}
variable {ends : ℕ → ℕ} (hen : ∀ k, start b range k < start b range (k + 1) → ends k = start b range (k + 1))

theorem CycleState.mark_of_lt {k : ℕ} (h : k < s.current) : s.mark b range k = start b range (k + 1) := if_pos h

theorem CycleState.mark_current : s.mark b range s.current = s.iterator := by
  rw [mark, if_neg (Nat.lt_irrefl _), if_pos rfl]

theorem CycleState.mark_of_gt {k : ℕ} (h : s.current < k) : s.mark b range k = s.offsets k := by
  rw [mark, if_neg (by omega), if_neg (by omega)]

theorem CycleState.mark_update_offsets {k v : ℕ} (h : s.current < k) (records : List α) :
    mark b range { s with records, offsets := update s.offsets k v } =
      update (s.mark b range) k v := by
  funext j
  by_cases hj : j = k
  · rw [hj, update_self, mark, if_neg (Nat.not_lt.mpr h.le), if_neg (Nat.ne_of_gt h)]
    exact update_self _ _ _
  · rw [update_of_ne hj, mark, mark]
    simp only [update_of_ne hj]

theorem CycleState.mark_update_iterator (iterator : ℕ) :
    mark b range { s with iterator } = update (s.mark b range) s.current iterator := by
  funext j
  by_cases hj : j = s.current
  · rw [hj, update_self]
    exact mark_current
  · rw [update_of_ne hj, mark, mark]
    simp only [if_neg hj]

namespace CycleInvariant

section

variable (h : CycleInvariant b range s)
include h

theorem start_eq (k : ℕ) : start b s.records k = start b range k := start_perm h.perm k

theorem current_lt {k : ℕ} (hk : k ∈ s.later) : s.current < k :=
  (List.pairwise_cons.mp h.later_sorted).1 k hk

theorem current_occurs : start b range s.current < start b range (s.current + 1) :=
  lt_of_le_of_lt h.iterator_ge h.iterator_lt

theorem iterator_unmarked {k : ℕ} (hk : start b s.records k < start b s.records (k + 1)) :
    ¬(start b s.records k ≤ s.iterator ∧ s.iterator < s.mark b range k) := by
  rintro ⟨hl, hh⟩
  have hu := h.placed.upper k hk
  have hc : k = s.current := bucket_unique ⟨hl, by omega⟩
    ⟨by rw [h.start_eq]; exact h.iterator_ge, by rw [h.start_eq]; exact h.iterator_lt⟩
  rw [hc, mark_current] at hh
  exact Nat.lt_irrefl _ hh

theorem exists_record : ∃ x, s.records[s.iterator]? = some x := by
  have hl := start_le_length (b := b) range (s.current + 1)
  have hlt := h.iterator_lt
  have hp := h.perm.length_eq
  exact ⟨_, List.getElem?_eq_getElem (by omega)⟩

theorem current_lt_bucket {x : α} (hx : s.records[s.iterator]? = some x) (hne : b x ≠ s.current) : s.current < b x := by
  have hr := h.placed.room hx (h.iterator_unmarked (region_nonempty (List.mem_of_getElem? hx)))
  rw [h.start_eq] at hr
  by_contra hle
  rw [mark_of_lt (by omega)] at hr
  exact Nat.lt_irrefl _ hr

/-- A record that is moved to its bucket stays there. -/
theorem displace {x : α} (hx : s.records[s.iterator]? = some x) (hne : b x ≠ s.current) : CycleInvariant b range { s with
        records := swap s.records s.iterator (s.offsets (b x))
        offsets := update s.offsets (b x) (s.offsets (b x) + 1) } := by
  have hl := h.current_lt_bucket hx hne
  have hp := h.placed.place hx fun k => h.iterator_unmarked
  rw [mark_of_gt hl] at hp
  refine { h with perm := (swap_perm _ _ _).trans h.perm, placed := ?_ }
  rw [mark_update_offsets hl]
  exact hp

theorem advance {x : α} (hx : s.records[s.iterator]? = some x) (heq : b x = s.current) :
    Placed b s.records (update (s.mark b range) s.current (s.iterator + 1)) := by
  have hp := h.placed.place hx fun k => h.iterator_unmarked
  rwa [heq, mark_current, swap_self] at hp

/-- When the iterator would reach the last record, only the last bucket is not full. -/
theorem full_at_lastElement (hl : s.iterator + 1 = range.length - 1) :
    ∃ z, ∀ k, k ≠ z → start b range k < start b range (k + 1) →
      update (s.mark b range) s.current (s.iterator + 1) k = start b range (k + 1) := by
  obtain ⟨full, z, hz⟩ : ∃ full z, s.later = full ++ [z] :=
    ⟨_, _, (List.dropLast_append_getLast h.later_ne_nil).symm⟩
  have hm : z ∈ s.later := by rw [hz]; simp
  have hzo := h.later_occurs z hm
  have hzl := start_le_length (b := b) range (z + 1)
  have hzs := start_mono (b := b) range (show s.current + 1 ≤ z from h.current_lt hm)
  have hite := h.iterator_lt
  refine ⟨z, fun k hk hoc => ?_⟩
  rcases Nat.lt_trichotomy k s.current with hlt | rfl | hgt
  · rw [update_of_ne (Nat.ne_of_lt hlt), mark_of_lt hlt]
  · rw [update_self]
    omega
  · -- a bucket between the current and the last would have no position
    have hkl : k ∈ full ++ [z] := hz ▸ (h.covers k hoc).resolve_left (by omega)
    have hkf : k ∈ full := (List.mem_append.mp hkl).resolve_right fun hm => hk (List.mem_singleton.mp hm)
    have hs := (List.pairwise_cons.mp h.later_sorted).2
    rw [hz] at hs
    have hkz : k < z := (List.pairwise_append.mp hs).2.2 k hkf z (by simp)
    have hlo := start_mono (b := b) range (show s.current + 1 ≤ k from hgt)
    have hh := start_mono (b := b) range (show k + 1 ≤ z from hkz)
    omega

include hen in
/-- When no later bucket but the last has room, only the last bucket is not full. -/
theorem full_at_lastBucket (hbl : s.iterator + 1 = ends s.current)
    (hno : nextUnfilledBucket s.offsets ends s.later = none) :
    ∃ z, ∀ k, k ≠ z → start b range k < start b range (k + 1) →
      update (s.mark b range) s.current (s.iterator + 1) k = start b range (k + 1) := by
  obtain ⟨full, z, hz, hf⟩ := nextUnfilledBucket_none h.later_ne_nil hno
  refine ⟨z, fun k hk hoc => ?_⟩
  rcases Nat.lt_trichotomy k s.current with hlt | rfl | hgt
  · rw [update_of_ne (Nat.ne_of_lt hlt), mark_of_lt hlt]
  · rw [update_self, hbl, hen _ hoc]
  · have hkl : k ∈ full ++ [z] := hz ▸ (h.covers k hoc).resolve_left (by omega)
    have hkf : k ∈ full := (List.mem_append.mp hkl).resolve_right fun hm => hk (List.mem_singleton.mp hm)
    rw [update_of_ne (Nat.ne_of_gt hgt), mark_of_gt hgt, hf k hkf, hen k hoc]

end

end CycleInvariant

include hen in
theorem CycleInvariant.nextBucket (h : CycleInvariant b range s) (hbl : s.iterator + 1 = ends s.current)
    (hp : Placed b s.records (update (s.mark b range) s.current (s.iterator + 1))) {current : ℕ} {later : List ℕ}
    (hso : nextUnfilledBucket s.offsets ends s.later = some (current, later)) :
    CycleInvariant b range { s with iterator := s.offsets current, current, later } ∧
      ∀ k, start b range k < start b range (k + 1) →
        mark b range { s with iterator := s.offsets current, current, later } k =
          update (s.mark b range) s.current (s.iterator + 1) k := by
  obtain ⟨full, hl, hno, hr, hf⟩ := nextUnfilledBucket_some hso
  have hm : current ∈ s.later := by rw [hl]; simp
  have hoc := h.later_occurs current hm
  have hgt := h.current_lt hm
  have hs := (List.pairwise_cons.mp h.later_sorted).2
  rw [hl] at hs
  obtain ⟨-, ht, hbe⟩ := List.pairwise_append.mp hs
  have hma : ∀ k, start b range k < start b range (k + 1) →
      mark b range { s with iterator := s.offsets current, current, later } k =
        update (s.mark b range) s.current (s.iterator + 1) k := by
    intro k hk
    rcases Nat.lt_trichotomy k s.current with hlt | rfl | hlat'
    · rw [mark, if_pos (show k < current by omega), update_of_ne (Nat.ne_of_lt hlt), mark_of_lt hlt]
    · rw [mark, if_pos hgt, update_self, hbl, hen _ hk]
    · rw [update_of_ne (Nat.ne_of_gt hlat'), mark_of_gt hlat', mark]
      dsimp only
      rcases Nat.lt_trichotomy k current with hlt | rfl | hgt'
      · -- a bucket that was passed over is full
        have hkl : k ∈ full ++ current :: later := hl ▸ (h.covers k hk).resolve_left (by omega)
        have hkf : k ∈ full := by
          refine (List.mem_append.mp hkl).resolve_right fun hm => ?_
          rcases List.mem_cons.mp hm with rfl | hm
          · exact Nat.lt_irrefl _ hlt
          · exact absurd ((List.pairwise_cons.mp ht).1 k hm) (by omega)
        rw [if_pos hlt, hf k hkf, hen k hk]
      · rw [if_neg (Nat.lt_irrefl _), if_pos rfl]
      · rw [if_neg (by omega), if_neg (by omega)]
  have hc := hma current hoc
  rw [mark, if_neg (Nat.lt_irrefl _), if_pos rfl] at hc
  have hst := h.start_eq
  have hlo := hp.lower current (by rw [hst, hst]; exact hoc)
  have hu := hp.upper current (by rw [hst, hst]; exact hoc)
  rw [hst, ← hc] at hlo hu
  rw [hen _ hoc] at hr
  refine ⟨⟨h.perm, hp.congr fun k hk => hma k (by rwa [hst, hst] at hk), ?_, hlo, hno, ht,
    ?_, ?_⟩, hma⟩
  · exact lt_of_le_of_ne hu hr
  · intro k hk
    exact h.later_occurs k (by rw [hl]; simp [hk])
  · intro k hk
    rcases h.covers k hk with hle | hkl
    · exact .inl (hle.trans hgt.le)
    · rw [hl] at hkl
      rcases List.mem_append.mp hkl with hkf | hkTail
      · exact .inl (hbe k hkf current (by simp)).le
      · rcases List.mem_cons.mp hkTail with rfl | hkTail
        · exact .inl (Nat.le_refl _)
        · exact .inr hkTail

include hen in
/-- One iteration of the cycle loop places a record or leaves the range distributed. -/
theorem cycleStep_spec (hb : ∀ x ∈ range, b x < 256) (h : CycleInvariant b range s) :
    (∃ s', cycleStep b ends (range.length - 1) s = some (.inl s') ∧ CycleInvariant b range s' ∧
      unplaced b range (s'.mark b range) (occurring b range 256) <
        unplaced b range (s.mark b range) (occurring b range 256)) ∨
    ∃ out, cycleStep b ends (range.length - 1) s = some (.inr out) ∧ out.Perm range ∧ Distributed b out := by
  obtain ⟨x, hx⟩ := h.exists_record
  have hxr : x ∈ range := h.perm.subset (List.mem_of_getElem? hx)
  have hs := h.start_eq
  have hr := h.placed.room hx (h.iterator_unmarked (region_nonempty (List.mem_of_getElem? hx)))
  rw [hs] at hr
  have hp := unplaced_update_lt (mem_occurring.mpr ⟨hb x hxr, region_nonempty hxr⟩)
    hr
  rw [cycleStep, hx, Option.map_some]
  by_cases heq : b x = s.current
  · rw [if_pos heq]
    have hpl := h.advance hx heq
    rw [heq, mark_current] at hp
    have hd : ∀ z, (∀ k, k ≠ z → start b range k < start b range (k + 1) →
        update (s.mark b range) s.current (s.iterator + 1) k = start b range (k + 1)) →
        Distributed b s.records := fun z hz =>
      hpl.distributed z fun k hk hoc => by
        rw [hs, hs] at hoc
        rw [hs]
        exact hz k hk hoc
    by_cases hl : s.iterator + 1 = range.length - 1
    · right
      obtain ⟨z, hz⟩ := h.full_at_lastElement hl
      rw [if_pos hl]
      exact ⟨_, rfl, h.perm, hd z hz⟩
    · rw [if_neg hl]
      by_cases hbl : s.iterator + 1 = ends s.current
      · rw [if_pos hbl]
        cases hn : nextUnfilledBucket s.offsets ends s.later with
        | none =>
          right
          obtain ⟨z, hz⟩ := h.full_at_lastBucket hen hbl hn
          exact ⟨_, rfl, h.perm, hd z hz⟩
        | some found =>
          left
          obtain ⟨hinv, hm⟩ := h.nextBucket hen hbl hpl hn
          refine ⟨_, rfl, hinv, lt_of_eq_of_lt (unplaced_congr fun k hk => hm k ?_) hp⟩
          exact (mem_occurring.mp hk).2
      · left
        rw [if_neg hbl]
        rw [hen _ h.current_occurs] at hbl
        have hlt := h.iterator_lt
        have hge := h.iterator_ge
        refine ⟨_, rfl, { h with placed := ?_, iterator_lt := ?_, iterator_ge := ?_ }, ?_⟩
        · rw [mark_update_iterator]
          exact hpl
        · change s.iterator + 1 < start b range (s.current + 1)
          omega
        · change start b range s.current ≤ s.iterator + 1
          omega
        · rw [mark_update_iterator]
          exact hp
  · left
    rw [if_neg heq]
    have hla := h.current_lt_bucket hx heq
    rw [mark_of_gt hla] at hp
    refine ⟨_, rfl, h.displace hx heq, ?_⟩
    rw [mark_update_offsets hla]
    exact hp

variable {offsets : ℕ → ℕ} (hb : ∀ x ∈ range, b x < 256)
  (ho : ∀ k ∈ occurring b range 256, offsets k = start b range k)

include hb ho

theorem CycleInvariant.initial {current next : ℕ} {later : List ℕ}
    (hids : occurring b range 256 = current :: next :: later) :
    CycleInvariant b range ⟨range, offsets, offsets current, current, next :: later⟩ ∧ ∀ k ∈ occurring b range 256,
        mark b range ⟨range, offsets, offsets current, current, next :: later⟩ k = start b range k := by
  have hs := occurring_pairwise (b := b) range 256
  have hf : current ∈ occurring b range 256 := by rw [hids]; simp
  have hm : ∀ k ∈ occurring b range 256,
      mark b range ⟨range, offsets, offsets current, current, next :: later⟩ k = start b range k := by
    intro k hk
    have hle : current ≤ k := by
      rw [hids] at hk hs
      rcases List.mem_cons.mp hk with rfl | hk
      · exact Nat.le_refl _
      · exact ((List.pairwise_cons.mp hs).1 k hk).le
    rw [mark, if_neg (Nat.not_lt.mpr hle)]
    split
    · rename_i heq
      rw [heq]
      exact ho current hf
    · exact ho k hk
  have hoc := (mem_occurring.mp hf).2
  have ha := ho current hf
  refine ⟨⟨List.Perm.refl _, (placed_start b range).congr fun k hk => hm k (mem_occurring_of_lt hb hk), ?_, ?_,
    List.cons_ne_nil _ _, hids ▸ hs, ?_, ?_⟩, hm⟩
  · rw [ha]
    exact hoc
  · exact ha.ge
  · intro k hk
    exact (mem_occurring.mp (by rw [hids]; exact List.mem_cons_of_mem _ hk)).2
  · intro k hk
    have hkm := mem_occurring_of_lt hb hk
    rw [hids] at hkm
    rcases List.mem_cons.mp hkm with rfl | hkm
    · exact .inl (Nat.le_refl _)
    · exact .inr hkm

/-- The permutation of `cycleBucketSort` ends and distributes the records. -/
theorem cyclePermute_spec (hen : ∀ k ∈ occurring b range 256, ends k = start b range (k + 1)) :
    ∃ out, cyclePermute b offsets ends range (occurring b range 256) = some out ∧ out.Perm range ∧ Distributed b out := by
  have hone : ∀ z, (∀ k ∈ occurring b range 256, k = z) → Distributed b range := fun z hz =>
    (placed_start b range).distributed z fun k hk hoc => absurd (hz k (mem_occurring_of_lt hb hoc)) hk
  match hids : occurring b range 256 with
  | [] => exact ⟨range, rfl, List.Perm.refl _, hone 0 fun k hk => absurd (hids ▸ hk) List.not_mem_nil⟩
  | [z] => exact ⟨range, rfl, List.Perm.refl _, hone z fun k hk => List.mem_singleton.mp (hids ▸ hk)⟩
  | current :: next :: later =>
    obtain ⟨hinv, hm⟩ := CycleInvariant.initial hb ho hids
    have ht := unplaced_start (b := b) range 256
    rw [← unplaced_congr hm, start_eq_length hb] at ht
    exact Loop.iterate_total (CycleInvariant b range)
      (fun s => unplaced b range (s.mark b range) (occurring b range 256)) _
      (fun s hs => cycleStep_spec (fun k hk => hen k (mem_occurring_of_lt hb hk)) hb hs) hinv (by omega)

end Cycle

section Large

variable {range : List α} {s : Scatter α}
variable {nextOffset : ℕ → ℕ} {ids : List ℕ} {unfinished : ℕ}

/-- What holds throughout `largeBucketSort`: the offsets are the fill marks. -/
structure ScatterInvariant (b : α → ℕ) (range : List α) (s : Scatter α) : Prop where
  perm : s.records.Perm range
  placed : Placed b s.records s.offsets

def Scatter.Full (b : α → ℕ) (range : List α) (s : Scatter α) (k : ℕ) : Prop := s.offsets k = start b range (k + 1)

def Scatter.pending (b : α → ℕ) (range : List α) (s : Scatter α) : ℕ :=
  unplaced b range s.offsets (occurring b range 256)

/-- Later in the loop: at least `count` more records are placed, and full buckets stay full. -/
structure Scatter.Advances (b : α → ℕ) (range : List α) (count : ℕ) (s s' : Scatter α) : Prop where
  invariant : ScatterInvariant b range s'
  pending_le : s'.pending b range + count ≤ s.pending b range
  full : ∀ k, s.Full b range k → s'.Full b range k

theorem Scatter.Advances.refl (h : ScatterInvariant b range s) : Advances b range 0 s s :=
  ⟨h, Nat.le_refl _, fun _ hk => hk⟩

theorem Scatter.Advances.trans {s' s'' : Scatter α} {m n : ℕ} (h : Advances b range m s s')
    (h' : Advances b range n s' s'') : Advances b range (m + n) s s'' :=
  ⟨h'.invariant, by have := h.pending_le; have := h'.pending_le; omega, fun k hk => h'.full k (h.full k hk)⟩

section

variable (hb : ∀ x ∈ range, b x < 256)
include hb

theorem Scatter.placeAt_spec (h : ScatterInvariant b range s) {id position : ℕ} (hlo : s.offsets id ≤ position)
    (hst : start b range id ≤ position) (hh : position < start b range (id + 1)) :
    Advances b range 1 s (s.placeAt b position) ∧ (s.placeAt b position).offsets id ≤ position + 1 := by
  have hs : ∀ k, start b s.records k = start b range k := start_perm h.perm
  have hl := start_le_length (b := b) range (id + 1)
  obtain ⟨x, hx⟩ : ∃ x, s.records[position]? = some x :=
    ⟨_, List.getElem?_eq_getElem (by have := h.perm.length_eq; omega)⟩
  have hxr : x ∈ range := h.perm.subset (List.mem_of_getElem? hx)
  have hou : ∀ k, start b s.records k < start b s.records (k + 1) →
      ¬(start b s.records k ≤ position ∧ position < s.offsets k) := by
    rintro k hk ⟨hge, hlt⟩
    have hu := h.placed.upper k hk
    have hid : k = id := bucket_unique ⟨hge, by omega⟩
      ⟨by rw [hs]; exact hst, by rw [hs]; exact hh⟩
    rw [hid] at hlt
    omega
  have hr := h.placed.room hx (hou _ (region_nonempty (List.mem_of_getElem? hx)))
  rw [hs] at hr
  have hp := unplaced_update_lt (mem_occurring.mpr ⟨hb x hxr, region_nonempty hxr⟩)
    hr
  rw [placeAt, hx]
  refine ⟨⟨⟨(swap_perm _ _ _).trans h.perm, h.placed.place hx hou⟩, hp, fun k hk => ?_⟩, ?_⟩
  · have hne : k ≠ b x := by
      rintro rfl
      rw [Full] at hk
      omega
    exact (update_of_ne hne _ _).trans hk
  · dsimp only
    by_cases hid : id = b x
    · rw [hid, update_self, ← hid]
      omega
    · rw [update_of_ne hid]
      omega

theorem Scatter.foldl_placeAt {id count position : ℕ} (h : ScatterInvariant b range s) (hl : s.offsets id ≤ position)
    (hs : start b range id ≤ position) (hh : position + count ≤ start b range (id + 1)) :
    Advances b range count s ((List.range' position count).foldl (placeAt b) s) := by
  induction count generalizing s position with
  | zero => exact Advances.refl h
  | succ count ih =>
    obtain ⟨ha, hn⟩ := placeAt_spec hb h hl hs (by omega)
    rw [List.range'_succ, List.foldl_cons, Nat.add_comm count 1]
    exact ha.trans (ih ha.invariant hn (by omega) (by omega))

theorem Scatter.scatterBucket_spec {id : ℕ} (hid : id ∈ occurring b range 256)
    (hn : nextOffset id = start b range (id + 1)) (h : ScatterInvariant b range s) :
    Advances b range (s.scatterBucket b nextOffset id).2.toNat s (s.scatterBucket b nextOffset id).1 ∧
      ((s.scatterBucket b nextOffset id).2 = false → (s.scatterBucket b nextOffset id).1.Full b range id) := by
  have hoc := (mem_occurring.mp hid).2
  have hs : ∀ k, start b s.records k = start b range k := start_perm h.perm
  have hl := h.placed.lower id (by rw [hs, hs]; exact hoc)
  have hu := h.placed.upper id (by rw [hs, hs]; exact hoc)
  rw [hs] at hl hu
  rw [scatterBucket, hn]
  split_ifs with hf
  · exact ⟨Advances.refl h, fun _ => hf⟩
  · have ha := foldl_placeAt hb h (Nat.le_refl (s.offsets id)) hl
      (show s.offsets id + (start b range (id + 1) - s.offsets id) ≤ start b range (id + 1) by omega)
    dsimp only
    refine ⟨⟨ha.invariant, ?_, ha.full⟩, fun hd => by simpa [Full] using hd⟩
    have hp := ha.pending_le
    have hone := Bool.toNat_le (((List.range' (s.offsets id) (start b range (id + 1) - s.offsets id)).foldl
      (placeAt b) s).offsets id != start b range (id + 1))
    omega

/-- What holds when `visited` ids have been tested: the ids from `begin` on among them,
and those from `unfinished` on, are full. -/
structure PartitionInvariant (b : α → ℕ) (range : List α) (unfinished visited pending : ℕ)
    (state : Scatter α × List ℕ × ℕ) : Prop where
  invariant : ScatterInvariant b range state.1
  ids_perm : state.2.1.Perm (occurring b range 256)
  begin_le : state.2.2 ≤ visited
  pending_le : state.1.pending b range + state.2.2 ≤ pending
  full : ∀ j k, state.2.1[j]? = some k → (state.2.2 ≤ j ∧ j < visited) ∨ unfinished ≤ j → state.1.Full b range k

structure LargeInvariant (b : α → ℕ) (range : List α) (state : Scatter α × List ℕ × ℕ) : Prop where
  invariant : ScatterInvariant b range state.1
  ids_perm : state.2.1.Perm (occurring b range 256)
  unfinished_le : state.2.2 ≤ state.2.1.length
  full : ∀ j k, state.2.1[j]? = some k → state.2.2 ≤ j → state.1.Full b range k

theorem LargeInvariant.distributed (h : LargeInvariant b range (s, ids, unfinished)) (hone : unfinished ≤ 1) :
    Distributed b s.records := by
  have hp := h.invariant.perm
  refine h.invariant.placed.distributed (ids.getD 0 0) fun k hk hoc => ?_
  rw [start_perm hp, start_perm hp] at hoc
  rw [start_perm hp]
  obtain ⟨j, hj⟩ := List.mem_iff_getElem?.mp (h.ids_perm.symm.subset (mem_occurring_of_lt hb hoc))
  have hj0 : j ≠ 0 := by
    rintro rfl
    exact hk (by rw [List.getD_eq_getElem?_getD, hj, Option.getD_some])
  exact h.full j k hj (by dsimp only; omega)

variable (hn : ∀ k, k < 256 → nextOffset k = start b range (k + 1))
include hn

theorem PartitionInvariant.step {visited pending begin : ℕ}
    (h : PartitionInvariant b range unfinished visited pending (s, ids, begin)) (hv : visited < unfinished)
    (hl : unfinished ≤ ids.length) :
    PartitionInvariant b range unfinished (visited + 1) pending
      (let tested := s.scatterBucket b nextOffset (ids.getD visited 0)
       if tested.2 then (tested.1, swap ids begin visited, begin + 1) else (tested.1, ids, begin)) := by
  have hg : ids[visited]? = some (ids.getD visited 0) := by
    rw [List.getD_eq_getElem?_getD, List.getElem?_eq_getElem (by omega), Option.getD_some]
  have hid : ids.getD visited 0 ∈ occurring b range 256 := h.ids_perm.subset (List.mem_of_getElem? hg)
  obtain ⟨ha, hd⟩ := scatterBucket_spec hb hid (hn _ (lt_of_mem_occurring hid)) h.invariant
  generalize s.scatterBucket b nextOffset (ids.getD visited 0) = tested at *
  obtain ⟨next, more⟩ := tested
  have hp := h.pending_le
  have hbe := h.begin_le
  have hs := ha.pending_le
  dsimp only at hp hbe hs hd ha ⊢
  cases more with
  | false =>
    rw [if_neg Bool.false_ne_true]
    refine ⟨ha.invariant, h.ids_perm, Nat.le_succ_of_le hbe, ?_, fun j k hj hr => ?_⟩
    · dsimp only
      omega
    · by_cases hjv : j = visited
      · subst hjv
        obtain rfl := Option.some.inj (hg.symm.trans hj)
        exact hd rfl
      · exact ha.full k (h.full j k hj (by dsimp only at hr ⊢; omega))
  | true =>
    rw [if_pos rfl]
    refine ⟨ha.invariant, (swap_perm _ _ _).trans h.ids_perm, Nat.succ_le_succ hbe, ?_,
      fun j k hj hr => ?_⟩
    · simp only [Bool.toNat_true] at hs
      dsimp only
      omega
    · dsimp only at hj hr
      rw [getElem?_swap (by omega) (by omega)] at hj
      -- only the positions `begin` and `visited` change, and `begin` is counted off
      rw [if_neg (show j ≠ begin by omega)] at hj
      split_ifs at hj with hjv
      · exact ha.full k (h.full begin k hj (Or.inl ⟨Nat.le_refl _, by omega⟩))
      · exact ha.full k (h.full j k hj (by dsimp only; omega))

theorem partitionBucketIds_spec (h : ScatterInvariant b range s) (hids : ids.Perm (occurring b range 256))
    (hl : unfinished ≤ ids.length) (hfu : ∀ j k, ids[j]? = some k → unfinished ≤ j → s.Full b range k) :
    PartitionInvariant b range unfinished unfinished (s.pending b range)
      (partitionBucketIds (scatterBucket b nextOffset) unfinished s ids) := by
  have hf : ∀ visited ≤ unfinished, PartitionInvariant b range unfinished visited (s.pending b range)
      (partitionBucketIds (scatterBucket b nextOffset) visited s ids) := by
    intro visited
    induction visited with
    | zero =>
      intro _
      exact ⟨h, hids, Nat.le_refl _, Nat.le_refl _, fun j k hj hr =>
        hfu j k hj (hr.resolve_left fun hlt => absurd hlt.2 (Nat.not_lt_zero j))⟩
    | succ visited ih =>
      intro hle
      have hinv := ih (by omega)
      rw [partitionBucketIds, List.range_succ, List.foldl_append, List.foldl_cons, List.foldl_nil]
      rw [partitionBucketIds] at hinv
      refine PartitionInvariant.step hb hn hinv (by omega) ?_
      rw [hinv.ids_perm.length_eq, ← hids.length_eq]
      exact hl
  exact hf unfinished (Nat.le_refl _)

/-- A round over the buckets fills some of them or ends. -/
theorem largeStep_spec {state : Scatter α × List ℕ × ℕ} (h : LargeInvariant b range state) :
    (∃ state', largeStep b nextOffset state = some (.inl state') ∧ LargeInvariant b range state' ∧
      state'.1.pending b range + state'.2.2 < state.1.pending b range + state.2.2) ∨
    ∃ out, largeStep b nextOffset state = some (.inr out) ∧ out.1.Perm range ∧ Distributed b out.1 ∧
      out.2.Perm (occurring b range 256) := by
  obtain ⟨s, ids, unfinished⟩ := state
  rw [largeStep]
  dsimp only
  by_cases hm : unfinished > 1
  · left
    have hp := partitionBucketIds_spec hb hn h.invariant h.ids_perm h.unfinished_le h.full
    rw [if_pos hm]
    dsimp only at hp
    generalize partitionBucketIds (scatterBucket b nextOffset) unfinished s ids = state at hp
    have hbe := hp.begin_le
    have hme := hp.pending_le
    have hl := h.unfinished_le
    have hs := hp.ids_perm.length_eq.trans h.ids_perm.length_eq.symm
    dsimp only at hl hs
    refine ⟨state, rfl, ⟨hp.invariant, hp.ids_perm, by omega, fun j k hj hle => ?_⟩, by omega⟩
    exact hp.full j k hj (by omega)
  · right
    rw [if_neg hm]
    exact ⟨_, rfl, h.invariant.perm, h.distributed hb (by omega), h.ids_perm⟩

/-- The loop of `largeBucketSort` ends and distributes the records. -/
theorem largePermute_spec {offsets : ℕ → ℕ} (ho : ∀ k ∈ occurring b range 256, offsets k = start b range k) :
    ∃ out, Loop.iterate (largeStep b nextOffset) (range.length + (occurring b range 256).length + 1)
        (⟨range, offsets⟩, occurring b range 256, (occurring b range 256).length) = some out ∧
      out.1.Perm range ∧ Distributed b out.1 ∧ out.2.Perm (occurring b range 256) := by
  have hp : pending b range ⟨range, offsets⟩ = range.length := by
    rw [pending, unplaced_congr ho, unplaced_start, start_eq_length hb]
  have hini : LargeInvariant b range
      (⟨range, offsets⟩, occurring b range 256, (occurring b range 256).length) :=
    ⟨⟨List.Perm.refl _, (placed_start b range).congr fun k hk => ho k (mem_occurring_of_lt hb hk)⟩,
      List.Perm.refl _, Nat.le_refl _, fun j k hj hle =>
        absurd (List.getElem?_eq_some_iff.mp hj).1 (Nat.not_lt.mpr hle)⟩
  exact Loop.iterate_total (LargeInvariant b range) (fun state => state.1.pending b range + state.2.2)
    (fun out : List α × List ℕ => out.1.Perm range ∧ Distributed b out.1 ∧ out.2.Perm (occurring b range 256))
    (fun state hs => largeStep_spec hb hn hs) hini (by dsimp only; omega)

end

end Large

end Bolt.RadixSort
