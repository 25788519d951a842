import Bolt.RadixSort.Sorter

/-!
# Run detection sorts

`detectRunsAndSort` with any fallback that sorts the parts of its input. The runs are
kept as their ends, so what is known of them is stated between consecutive ends; a
change of the records after the last end leaves it true.
-/

namespace Bolt.RadixSort

open Lib Lib.Ranges Lib.Sorting List

variable {α : Type} {less : α → α → Bool}
variable {records range : List α} {begin last unstableLimit : ℕ} {runs : List ℕ} {descending : Bool} {scan : RunScan α}
  {fallback : List α → Option (List α)}

/-- The ends increase, and the parts between consecutive ends are in order. -/
def RunsSorted (less : α → α → Bool) (records : List α) : ℕ → List ℕ → Prop
  | _, [] => True
  | begin, last :: runs =>
    begin < last ∧ last ≤ records.length ∧ Sorted less (slice records begin last) ∧
      RunsSorted less records last runs

theorem RunsSorted.begin_le_getLastD (h : RunsSorted less records begin runs) : begin ≤ runs.getLastD begin := by
  induction runs generalizing begin with
  | nil => exact Nat.le_refl begin
  | cons last runs ih =>
    obtain ⟨hle, _, _, hr⟩ := h
    rw [getLastD_cons]
    exact hle.le.trans (ih hr)

/-- Records that change only before the first run or after the last end keep the runs. -/
theorem RunsSorted.frame {records' : List α} (h : RunsSorted less records begin runs)
    (hlen : records'.length = records.length)
    (hsl : ∀ p q, begin ≤ p → q ≤ runs.getLastD begin → slice records' p q = slice records p q) :
    RunsSorted less records' begin runs := by
  induction runs generalizing begin with
  | nil => trivial
  | cons last runs ih =>
    obtain ⟨hle, hl, hs, hr⟩ := h
    rw [getLastD_cons] at hsl
    refine ⟨hle, hlen ▸ hl, ?_, ih hr fun p q hp hq => hsl p q (hle.le.trans hp) hq⟩
    rw [hsl begin last (Nat.le_refl _) hr.begin_le_getLastD]
    exact hs

theorem RunsSorted.append (h : RunsSorted less records begin runs) (hle : runs.getLastD begin < last)
    (hl : last ≤ records.length) (hs : Sorted less (slice records (runs.getLastD begin) last)) :
    RunsSorted less records begin (runs ++ [last]) := by
  induction runs generalizing begin with
  | nil => exact ⟨hle, hl, hs, trivial⟩
  | cons first runs ih =>
    obtain ⟨hf, hlen, hru, hr⟩ := h
    rw [getLastD_cons] at hle hs
    exact ⟨hf, hlen, hru, ih hr hle hs⟩

def runsBetween (records : List α) : ℕ → List ℕ → List (List α)
  | _, [] => []
  | begin, last :: runs => slice records begin last :: runsBetween records last runs

theorem RunsSorted.partition (h : RunsSorted less records begin runs) :
    (begin :: runs).Pairwise (· < ·) ∧ (∀ run ∈ runsBetween records begin runs, Sorted less run) ∧
      (runsBetween records begin runs).flatten = slice records begin (runs.getLastD begin) := by
  induction runs generalizing begin with
  | nil => simp [runsBetween, slice]
  | cons last runs ih =>
    obtain ⟨hlt, _, hs, hr⟩ := h
    obtain ⟨hen, ha, hf⟩ := ih hr
    refine ⟨pairwise_cons.mpr ⟨fun p hp => ?_, hen⟩, forall_mem_cons.mpr ⟨hs, ha⟩, ?_⟩
    · rcases mem_cons.mp hp with rfl | hp
      · exact hlt
      · exact hlt.trans ((pairwise_cons.mp hen).1 p hp)
    · rw [runsBetween, flatten_cons, hf, getLastD_cons, slice_append hlt.le hr.begin_le_getLastD]

theorem scanBackward_spec (stop : ℕ → Bool) {beginRange current : ℕ} (h : beginRange < current) :
    beginRange ≤ scanBackward stop beginRange current ∧ scanBackward stop beginRange current ≤ current ∧
      ∀ i, scanBackward stop beginRange current ≤ i → i < current → stop i = false := by
  induction current with
  | zero => exact absurd h (Nat.not_lt_zero _)
  | succ current ih =>
    rw [scanBackward]
    by_cases hs : stop current = true
    · rw [if_pos hs]
      exact ⟨by omega, Nat.le_refl _, fun i hi hlt => absurd hlt (by omega)⟩
    · have hc : stop current = false := by simpa using hs
      rw [if_neg hs]
      split_ifs with hb
      · refine ⟨by omega, by omega, fun i hi hlt => ?_⟩
        rw [show i = current by omega]
        exact hc
      · obtain ⟨hl, hu, hr⟩ := ih (by omega)
        refine ⟨hl, by omega, fun i hi hlt => ?_⟩
        rcases Nat.lt_succ_iff_lt_or_eq.mp hlt with hlt | rfl
        · exact hr i hi hlt
        · exact hc

theorem scanForward_spec (stop : ℕ → Bool) (remaining next : ℕ) :
    next ≤ scanForward stop remaining next ∧ scanForward stop remaining next ≤ next + remaining ∧
      ∀ i, next ≤ i → i < scanForward stop remaining next → stop i = false := by
  induction remaining generalizing next with
  | zero => exact ⟨Nat.le_refl _, Nat.le_refl _, fun i hi hlt => absurd hlt (Nat.not_lt.mpr hi)⟩
  | succ remaining ih =>
    rw [scanForward]
    split_ifs with hs
    · exact ⟨Nat.le_refl _, by omega, fun i hi hlt => absurd hlt (Nat.not_lt.mpr hi)⟩
    · obtain ⟨hl, hu, hr⟩ := ih (next + 1)
      refine ⟨by omega, by omega, fun i hi hlt => ?_⟩
      rcases Nat.eq_or_lt_of_le hi with rfl | hi
      · simpa using hs
      · exact hr i hi hlt

theorem lessAt_eq {i j : ℕ} {left right : α} (hi : records[i]? = some left) (hj : records[j]? = some right) :
    lessAt less records i j = less left right := by
  rw [lessAt, hi, hj]

/-- What holds when the records before a position have been scanned. -/
structure Scanned (less : α → α → Bool) (range : List α) (position : ℕ) (scan : RunScan α) : Prop where
  perm : scan.records.Perm range
  runs : RunsSorted less scan.records 0 scan.runs
  end_eq : scan.runs.getLastD 0 = scan.beginUnstable.getD position
  unstable_lt : ∀ first, scan.beginUnstable = some first → first < position

theorem Scanned.end_le {position : ℕ} (h : Scanned less range position scan) : scan.runs.getLastD 0 ≤ position := by
  rw [h.end_eq]
  cases hunstable : scan.beginUnstable with
  | none => exact Nat.le_refl position
  | some first => exact (h.unstable_lt first hunstable).le

theorem Scanned.unstable {position next : ℕ} (h : Scanned less range position scan) (hlt : position < next) :
    Scanned less range next { scan with beginUnstable := some (scan.beginUnstable.getD position) } :=
  { h with unstable_lt := fun _ hf => (Option.some.inj hf ▸ h.end_eq ▸ h.end_le).trans_lt hlt }

private theorem orderRun {first : ℕ} (hle : first ≤ last) (hl : last ≤ records.length)
    (hr : if descending then (slice records first last).Pairwise (fun a b => less a b = false)
      else Sorted less (slice records first last)) :
    ∃ ordered, (if descending then replaceRange records first last (slice records first last).reverse
        else records) = ordered ∧ ordered.Perm records ∧ Sorted less (slice ordered first last) ∧
      ∀ p q, q ≤ first → slice ordered p q = slice records p q := by
  cases descending with
  | false => exact ⟨records, rfl, .refl _, hr, fun _ _ _ => rfl⟩
  | true =>
    have hlen : (slice records first last).reverse.length = last - first := by
      rw [length_reverse, length_slice hl]
    refine ⟨replaceRange records first last (slice records first last).reverse, rfl,
      replaceRange_perm hle (reverse_perm _), ?_, fun p q hq => ?_⟩
    · rw [slice_replaceRange hle hl hlen]
      exact pairwise_reverse.mpr hr
    · exact slice_replaceRange_disjoint hle hl hlen (.inr hq)

private theorem scannedRun (stop : ℕ → Bool) {beginRange : ℕ} (hli : 0 < unstableLimit)
    (hr : unstableLimit < last - (beginRange + 1)) (hm : stop (beginRange + unstableLimit) = false)
    {first next : ℕ} (hfi : scanBackward stop beginRange (beginRange + unstableLimit) = first)
    (hn : scanForward (fun i => stop (i - 1)) (last - (beginRange + unstableLimit + 2))
      (beginRange + unstableLimit + 2) = next) :
    beginRange ≤ first ∧ first ≤ next ∧ beginRange < next ∧ next ≤ last ∧
      ∀ i, first ≤ i → i + 1 < next → stop i = false := by
  obtain ⟨hl, hu, hb⟩ := scanBackward_spec stop (show beginRange < beginRange + unstableLimit by omega)
  obtain ⟨hf, hforwardUpper, hforward⟩ := scanForward_spec (fun i => stop (i - 1))
    (last - (beginRange + unstableLimit + 2)) (beginRange + unstableLimit + 2)
  rw [hfi] at hl hu hb
  rw [hn] at hf hforwardUpper hforward
  refine ⟨hl, by omega, by omega, by omega, fun i hi hlt => ?_⟩
  rcases Nat.lt_trichotomy i (beginRange + unstableLimit) with hbe | rfl | hab
  · exact hb i hi hbe
  · exact hm
  · exact hforward (i + 1) (by omega) hlt

theorem unstableLimit_pos {size : ℕ} (h : runDetectionCutoff ≤ size) : 0 < size / floorLog2 size := by
  have hs : 128 ≤ size := h
  have hp : 1 ≤ size.log2 := (Nat.le_log2 (by omega)).mpr (by omega)
  have hle : size.log2 ≤ size := Nat.lt_two_pow_self.le.trans (Nat.log2_self_le (by omega))
  exact Nat.div_pos hle hp

variable (M : ComparisonMerge) (hless : StrictWeakOrder less) (hfallback : ∀ part, part ⊆ range → Sorts less fallback part)

include hfallback in
theorem acceptRun_spec {current nextForward : ℕ} (h : Scanned less range scan.current scan)
    (hc : scan.current ≤ current) (hnex : current < nextForward) (hla : nextForward ≤ range.length)
    (hru : if descending then (slice scan.records current nextForward).Pairwise (fun a b => less a b = false)
      else Sorted less (slice scan.records current nextForward)) :
    ∃ scan', acceptRun fallback descending current nextForward scan = some scan' ∧
      Scanned less range nextForward scan' := by
  have hl := h.perm.length_eq
  obtain ⟨ordered, hord, hp, hso, hke⟩ := orderRun hnex.le (hla.trans hl.ge) hru
  have hen := h.end_le
  have hr : RunsSorted less ordered 0 scan.runs :=
    h.runs.frame hp.length_eq fun p q _ hq => hke p q (by omega)
  have horde : ordered.length = range.length := hp.length_eq.trans hl
  rw [acceptRun]
  simp only [hord]
  by_cases hstable : (scan.beginUnstable.isNone && current == scan.current) = true
  · obtain ⟨hn, hat⟩ : scan.beginUnstable = none ∧ current = scan.current := by simpa using hstable
    have hlas : scan.runs.getLastD 0 = current := by rw [h.end_eq, hn, hat]; rfl
    rw [if_pos hstable]
    refine ⟨_, rfl, hp.trans h.perm, hr.append (by omega) (by omega) (by rwa [hlas]), ?_, ?_⟩
    · simp [hn]
    · simp [hn]
  · -- everything between the last end and the run goes to the fallback
    have hbe : scan.runs.getLastD 0 < current := by
      cases hunstable : scan.beginUnstable with
      | none =>
        have hen : scan.runs.getLastD 0 = scan.current := by rw [h.end_eq, hunstable]; rfl
        have hne : current ≠ scan.current := by simpa [hunstable] using hstable
        omega
      | some first =>
        rw [h.end_eq, hunstable]
        exact (h.unstable_lt first hunstable).trans_le hc
    rw [if_neg hstable, ← h.end_eq]
    obtain ⟨sorted, hs, hsortedPerm, hpa, ho⟩ :=
      onRange_spec (by omega) (by omega)
        (hfallback (slice ordered (scan.runs.getLastD 0) current) fun x hx =>
          (hp.trans h.perm).subset (mem_of_mem_slice hx))
    rw [hs]
    have hb : RunsSorted less sorted 0 (scan.runs ++ [current]) :=
      (hr.frame hsortedPerm.length_eq fun p q _ hq => ho p q (.inr hq)).append hbe
        (by have := hsortedPerm.length_eq; omega) hpa
    refine ⟨_, rfl, hsortedPerm.trans (hp.trans h.perm), ?_, ?_, ?_⟩
    · have ha : RunsSorted less sorted 0 ((scan.runs ++ [current]) ++ [nextForward]) := hb.append
        (by simpa using hnex) (by have := hsortedPerm.length_eq; omega)
        (by simpa [ho current nextForward (.inl (Nat.le_refl _))] using hso)
      simpa using ha
    · simp
    · simp

include hfallback in
theorem Scanned.finish (h : Scanned less range range.length scan) :
    ∃ scan', closeUnstable fallback range.length scan = some scan' ∧ scan'.records.Perm range ∧
      RunsSorted less scan'.records 0 scan'.runs ∧ scan'.runs.getLastD 0 = range.length := by
  have hl := h.perm.length_eq
  rw [closeUnstable]
  cases hunstable : scan.beginUnstable with
  | none => exact ⟨scan, rfl, h.perm, h.runs, by rw [h.end_eq, hunstable]; rfl⟩
  | some beginUnstable =>
    have hen : scan.runs.getLastD 0 = beginUnstable := by rw [h.end_eq, hunstable]; rfl
    have hlt := h.unstable_lt beginUnstable hunstable
    obtain ⟨sorted, hs, hp, hpa, ho⟩ := onRange_spec hlt.le hl.ge
      (hfallback (slice scan.records beginUnstable range.length) fun x hx => h.perm.subset (mem_of_mem_slice hx))
    simp only [hs]
    refine ⟨_, rfl, hp.trans h.perm, ?_, by simp⟩
    exact (h.runs.frame hp.length_eq fun p q _ hq => ho p q (.inr (hen ▸ hq))).append (hen ▸ hlt)
      (by rw [hp.length_eq, hl]) (by rwa [hen])

include hless

theorem lessAt_asymm {i j : ℕ} (h : lessAt less records i j = true) : lessAt less records j i = false := by
  cases hi : records[i]? with
  | none => simp [lessAt, hi]
  | some left =>
    cases hj : records[j]? with
    | none => simp [lessAt, hj]
    | some right =>
      rw [lessAt_eq hi hj] at h
      rw [lessAt_eq hj hi]
      exact hless.asymm h

theorem ordered_of_endsRun {first : ℕ} (h : ∀ i, first ≤ i → i + 1 < last → endsRun less records descending i = false) :
    if descending then (slice records first last).Pairwise (fun a b => less a b = false)
      else Sorted less (slice records first last) := by
  cases descending with
  | true =>
    refine pairwise_slice_of_adjacent (fun a b c hab hbc => hless.negTrans hbc hab) fun p a b hp hlt ha hb => ?_
    have hc := h p hp hlt
    rwa [endsRun, if_pos rfl, lessAt_eq ha hb] at hc
  | false =>
    refine pairwise_slice_of_adjacent (fun a b c hab hbc => hless.negTrans hab hbc) fun p a b hp hlt ha hb => ?_
    have hc := h p hp hlt
    rwa [endsRun, if_neg Bool.false_ne_true, lessAt_eq hb ha] at hc

theorem endsRun_middle (records : List α) (middle : ℕ) :
    endsRun less records (lessAt less records (middle + 1) middle) middle = false := by
  cases h : lessAt less records (middle + 1) middle with
  | true => exact lessAt_asymm hless h
  | false => exact h

include hfallback in
/-- One iteration goes on from a later position, or ends with all records scanned. -/
theorem detectStep_spec (hli : 0 < unstableLimit) (h : Scanned less range scan.current scan)
    (hc : scan.current < range.length) :
    (∃ scan', detectStep less fallback unstableLimit range.length scan = some (.inl scan') ∧
      (Scanned less range scan'.current scan' ∧ scan'.current < range.length) ∧ scan.current < scan'.current) ∨
    ∃ scan', detectStep less fallback unstableLimit range.length scan = some (.inr scan') ∧
      Scanned less range range.length scan' := by
  rw [detectStep]
  by_cases hsh : range.length - (scan.current + 1) ≤ unstableLimit
  · right
    simp only [if_pos hsh]
    exact ⟨_, rfl, h.unstable hc⟩
  · simp only [if_neg hsh]
    have hm := endsRun_middle hless scan.records (scan.current + unstableLimit)
    generalize lessAt less scan.records (scan.current + unstableLimit + 1) (scan.current + unstableLimit) =
      descending at hm ⊢
    generalize hf : scanBackward (endsRun less scan.records descending) scan.current
      (scan.current + unstableLimit) = first
    generalize hn : scanForward (fun next => endsRun less scan.records descending (next - 1))
      (range.length - (scan.current + unstableLimit + 2)) (scan.current + unstableLimit + 2) = next
    obtain ⟨hb, hfirstNext, hp, hl, hcl⟩ :=
      scannedRun _ hli (by omega) hm hf hn
    have hsc : ∃ scan', (if next - first ≥ unstableLimit then acceptRun fallback descending first next scan
        else some { scan with beginUnstable := some (scan.beginUnstable.getD scan.current) }) = some scan' ∧
        Scanned less range next scan' := by
      split
      · exact acceptRun_spec hfallback h hb (by omega) hl (ordered_of_endsRun hless hcl)
      · exact ⟨_, rfl, h.unstable hp⟩
    obtain ⟨scan', hs, hs'⟩ := hsc
    rw [hs, Option.map_some]
    by_cases hd : next = range.length
    · right
      rw [if_pos hd]
      exact ⟨scan', rfl, hd ▸ hs'⟩
    · left
      rw [if_neg hd]
      exact ⟨_, rfl, ⟨⟨hs'.perm, hs'.runs, hs'.end_eq, hs'.unstable_lt⟩, by simp only; omega⟩, hp⟩

/-- Every difference of positions that an iteration takes is that of a later and an earlier one. -/
def NoUnderflow (less : α → α → Bool) (unstableLimit last : ℕ) (scan : RunScan α) : Prop :=
  scan.current + 1 ≤ last ∧ (unstableLimit < last - (scan.current + 1) →
    let middle := scan.current + unstableLimit
    middle + 2 ≤ last ∧ ∀ descending,
      let stop := endsRun less scan.records descending
      let current := scanBackward stop scan.current middle
      scan.current ≤ current ∧
        current ≤ scanForward (fun next => stop (next - 1)) (last - (middle + 2)) (middle + 2))

omit hless in
theorem noUnderflow_of_lt (hli : 0 < unstableLimit) (hc : scan.current < last) :
    NoUnderflow less unstableLimit last scan := by
  refine ⟨hc, fun hr => ⟨by omega, fun descending => ?_⟩⟩
  obtain ⟨hl, hu, _⟩ := scanBackward_spec (endsRun less scan.records descending)
    (show scan.current < scan.current + unstableLimit by omega)
  exact ⟨hl, (hu.trans (Nat.le_add_right _ 2)).trans (scanForward_spec _ _ _).1⟩

include hfallback in
/-- What holds before every iteration. -/
theorem scanned_of_reached (hl : 0 < unstableLimit) (hra : 0 < range.length) (hr : Relation.ReflTransGen
      (fun s s' => detectStep less fallback unstableLimit range.length s = some (.inl s')) ⟨range, [], none, 0⟩ scan) :
    Scanned less range scan.current scan ∧ scan.current < range.length := by
  induction hr with
  | refl => exact ⟨⟨.refl _, trivial, rfl, nofun⟩, hra⟩
  | tail _ hs ih =>
    rcases detectStep_spec hless hfallback hl ih.1 ih.2 with ⟨scan', hs', hinv, _⟩ | ⟨scan', hs', _⟩
    · rw [hs] at hs'
      cases hs'
      exact hinv
    · rw [hs] at hs'
      cases hs'

/-- One pass keeps the records before its first run, merges the runs in pairs and ends
where they ended. -/
theorem mergePass_spec (h : RunsSorted less records begin runs) : (mergePass M less begin runs records).2.Perm records ∧
      RunsSorted less (mergePass M less begin runs records).2 begin (mergePass M less begin runs records).1 ∧
      (mergePass M less begin runs records).1.getLastD begin = runs.getLastD begin ∧
      (mergePass M less begin runs records).1.length = (runs.length + 1) / 2 ∧
      ∀ p q, q ≤ begin → slice (mergePass M less begin runs records).2 p q = slice records p q := by
  fun_induction mergePass M less begin runs records with
  | case1 begin middle last runs records merged rest ih =>
    obtain ⟨hm, _, hlef, hl, hlastLength, hri, hre⟩ := h
    have hle : begin ≤ last := (hm.trans hl).le
    have hme : merged.Perm (slice records begin last) := by
      rw [← slice_append hm.le hl.le]
      exact M.perm less _ _ hless hlef hri
    have hlen : merged.length = last - begin := hme.length_eq.trans (length_slice hlastLength)
    have hr := length_replaceRange hle hlastLength hlen
    obtain ⟨hpe, hru, hen, hc, hke⟩ := ih (hre.frame hr fun p q hp _ =>
      slice_replaceRange_disjoint hle hlastLength hlen (.inl hp))
    refine ⟨hpe.trans (replaceRange_perm hle hme), ⟨hm.trans hl, ?_, ?_, hru⟩, ?_, ?_, fun p q hq => ?_⟩
    · rw [hpe.length_eq, hr]
      exact hlastLength
    · rw [hke begin last (Nat.le_refl _), slice_replaceRange hle hlastLength hlen]
      exact M.sorted less _ _ hless hlef hri
    · rw [getLastD_cons, getLastD_cons, getLastD_cons]
      exact hen
    · rw [length_cons, hc, length_cons, length_cons]
      omega
    · rw [hke p q (hq.trans hle)]
      exact slice_replaceRange_disjoint hle hlastLength hlen (.inr hq)
  | case2 begin runs records hs =>
    refine ⟨.refl _, h, rfl, ?_, fun _ _ _ => rfl⟩
    match runs, hs with
    | [], _ => rfl
    | [_], _ => exact (by decide : 1 = (1 + 1) / 2)
    | middle :: last :: runs, hs => exact absurd rfl (hs middle last runs)

/-- The passes end with one run, which is all the records. -/
theorem mergeRuns_sorts (hr : RunsSorted less records 0 runs) (hen : runs.getLastD 0 = records.length)
    (hc : 2 ≤ runs.length) :
    ∃ out, Loop.iterate (mergeStep M less) runs.length (runs, records) = some out ∧ out.Perm records ∧
      Sorted less out := by
  refine Loop.iterate_total
    (fun state => RunsSorted less state.2 0 state.1 ∧ state.1.getLastD 0 = records.length ∧ 2 ≤ state.1.length ∧
      state.2.Perm records)
    (fun state => state.1.length - 1) _ ?_ ⟨hr, hen, hc, .refl _⟩
    (show runs.length - 1 < runs.length by omega)
  rintro ⟨runs, current⟩ ⟨hr, hen, hc, hp⟩
  obtain ⟨hme, hm, hmergedEnd, hmergedCount, _⟩ := mergePass_spec M hless hr
  rw [mergeStep]
  generalize mergePass M less 0 runs current = merged at *
  by_cases hmo : merged.1.length > 1
  · left
    refine ⟨merged, by simp only [if_pos hmo], ⟨hm, hmergedEnd.trans hen, hmo, ?_⟩, ?_⟩
    · exact hme.trans hp
    · change merged.1.length - 1 < runs.length - 1
      change merged.1.length = (runs.length + 1) / 2 at hmergedCount
      omega
  · right
    refine ⟨merged.2, by simp only [if_neg hmo], hme.trans hp, ?_⟩
    obtain ⟨last, hl⟩ : ∃ last, merged.1 = [last] := length_eq_one_iff.mp (by omega)
    rw [hl] at hm hmergedEnd
    have hlen : last = merged.2.length :=
      (hmergedEnd.trans hen).trans (hme.trans hp).length_eq.symm
    have hs := hm.2.2.1
    rwa [hlen, slice_zero_length] at hs

/-! ## The whole of run detection -/

include hfallback in
theorem detectRuns_total (hl : 0 < unstableLimit) (hr : 0 < range.length) :
    ∃ scan, Loop.iterate (detectStep less fallback unstableLimit range.length) (range.length + 1)
      ⟨range, [], none, 0⟩ = some scan ∧ Scanned less range range.length scan := by
  refine Loop.iterate_total (fun scan => Scanned less range scan.current scan ∧ scan.current < range.length)
    (fun scan => range.length - scan.current) _ (fun scan hs => ?_)
    ⟨⟨.refl _, trivial, rfl, nofun⟩, hr⟩ (Nat.lt_succ_self _)
  rcases detectStep_spec hless hfallback hl hs.1 hs.2 with ⟨scan', hst, hinv, hp⟩ | hd
  · exact .inl ⟨scan', hst, hinv, by have := hinv.2; omega⟩
  · exact .inr hd

include hfallback in
theorem detectRunsAndSort_sorts : Sorts less (detectRunsAndSort M less fallback) range := by
  rw [Sorts, detectRunsAndSort]
  by_cases hsm : range.length < runDetectionCutoff
  · simp only [if_pos hsm]
    exact hfallback range (Subset.refl _)
  · have hsi : 128 ≤ range.length := Nat.not_lt.mp hsm
    obtain ⟨scan, hsc, hsca⟩ := detectRuns_total hless hfallback
      (unstableLimit_pos (Nat.not_lt.mp hsm)) (by omega)
    obtain ⟨scan', hf, hp, hr, hen⟩ := hsca.finish hfallback
    simp only [if_neg hsm, hsc, Option.bind_eq_bind, Option.bind_some, hf]
    split_ifs with ho
    · refine ⟨scan'.records, rfl, hp, ?_⟩
      -- the last end is not zero, so there is exactly one run
      match hrunsEq : scan'.runs with
      | [] =>
        rw [hrunsEq] at hen
        exact absurd hen (by simp only [getLastD_nil]; omega)
      | [last] =>
        rw [hrunsEq] at hr hen
        have hl : last = scan'.records.length := hen.trans hp.length_eq.symm
        have hs := hr.2.2.1
        rwa [hl, slice_zero_length] at hs
      | _ :: _ :: _ =>
        rw [hrunsEq] at ho
        exact absurd ho (by simp)
    · obtain ⟨out, hou, houtPerm, hs⟩ := mergeRuns_sorts M hless hr (hen.trans hp.length_eq.symm)
        (Nat.not_lt.mp ho)
      exact ⟨out, hou, houtPerm.trans hp, hs⟩

include hfallback in
/-- Run detection ends with the records in order. Where it does not leave everything to the
fallback, it notes increasing ends up to the last position, and the parts between them, which
are all the records, are in order when the merges begin. -/
theorem detectRunsAndSort_runs :
    Sorts less (detectRunsAndSort M less fallback) range ∧ (runDetectionCutoff ≤ range.length →
      let step := detectStep less fallback (range.length / floorLog2 range.length) range.length
      (∀ scan, Relation.ReflTransGen (fun s s' => step s = some (.inl s')) ⟨range, [], none, 0⟩ scan →
        NoUnderflow less (range.length / floorLog2 range.length) range.length scan) ∧
      ∃ scan closed, Loop.iterate step (range.length + 1) ⟨range, [], none, 0⟩ = some scan ∧
        closeUnstable fallback range.length scan = some closed ∧ closed.records.Perm range ∧
        (0 :: closed.runs).Pairwise (· < ·) ∧ closed.runs.getLastD 0 = range.length ∧
        (runsBetween closed.records 0 closed.runs).flatten = closed.records ∧
        ∀ run ∈ runsBetween closed.records 0 closed.runs, Sorted less run) := by
  refine ⟨detectRunsAndSort_sorts M hless hfallback, fun hsize => ?_⟩
  have hlimit := unstableLimit_pos hsize
  have hrange : 0 < range.length := Nat.lt_of_lt_of_le (by decide) hsize
  refine ⟨fun scan hreached => ?_, ?_⟩
  · exact noUnderflow_of_lt hlimit (scanned_of_reached hless hfallback hlimit hrange hreached).2
  · obtain ⟨scan, hscan, hscanned⟩ := detectRuns_total hless hfallback hlimit hrange
    obtain ⟨closed, hclosed, hperm, hruns, hend⟩ := hscanned.finish hfallback
    obtain ⟨hends, hsorted, hflatten⟩ := hruns.partition
    rw [hend, ← hperm.length_eq, slice_zero_length] at hflatten
    exact ⟨scan, closed, hscan, hclosed, hperm, hends, hend, hflatten, hsorted⟩

omit hless in
/-- Two hundred numbers in descending order. -/
theorem detectRunsAndSort_runs_descending :
    let less := fun a b : ℕ => (compare a b).isLT
    let fallback := fun part => some (ComparisonSort.insertion.sort less part)
    let numbers := (List.range 200).reverse
    Sorts less (detectRunsAndSort .standard less fallback) numbers ∧
      ∃ scan closed, Loop.iterate (detectStep less fallback (200 / floorLog2 200) 200) 201 ⟨numbers, [], none, 0⟩ = some scan ∧
        closeUnstable fallback 200 scan = some closed ∧ (0 :: closed.runs).Pairwise (· < ·) ∧
        ∀ run ∈ runsBetween closed.records 0 closed.runs, Sorted less run := by
  have hless := strictWeak_isLT (compare : ℕ → ℕ → Ordering)
  have hlength : (List.range 200).reverse.length = 200 := by rw [length_reverse, length_range]
  have hfallback : ∀ part ⊆ (List.range 200).reverse,
      Sorts _ (fun part => some (ComparisonSort.insertion.sort (fun a b => (compare a b).isLT) part)) part := fun part _ =>
    ⟨_, rfl, ComparisonSort.insertion.perm _ part hless, ComparisonSort.insertion.sorted _ part hless⟩
  obtain ⟨hsorts, hruns⟩ := detectRunsAndSort_runs .standard hless hfallback
  obtain ⟨-, scan, closed, hscan, hclosed, -, hends, -, -, hsorted⟩ := hruns (by rw [hlength]; decide)
  rw [hlength] at hscan hclosed
  exact ⟨hsorts, scan, closed, hscan, hclosed, hends, hsorted⟩

end Bolt.RadixSort
