import Bolt.Lib.Sorting
import Mathlib.Order.MinMax

/-!
# Closed ranges of a linear order

Ranges sorted by their lower ends are merged from left to right: a range that starts at or
before the limit of the running one is merged into it. The limit is a partial function of the
upper end, so that "adjacent" can mean "starts at the next value" where there is one.
-/

namespace Bolt.Lib.Intervals

open Lib.Sorting List

/-- A closed range. It is empty where its ends are the wrong way round. -/
structure ClosedRange (α : Type) where
  lower : α
  upper : α
deriving DecidableEq

namespace ClosedRange

variable {α ε : Type} [LinearOrder α]
variable {limit : α → Except ε α}

def contains (r : ClosedRange α) (v : α) : Bool := decide (r.lower ≤ v) && decide (v ≤ r.upper)

variable {r : ClosedRange α}

@[simp]
theorem contains_iff {v : α} : r.contains v = true ↔ r.lower ≤ v ∧ v ≤ r.upper := by
  simp [contains]

def startsBefore (r s : ClosedRange α) : Bool := decide (r.lower < s.lower)

theorem strictWeak_startsBefore : StrictWeakOrder (startsBefore : ClosedRange α → ClosedRange α → Bool) where
  irrefl r := by simp [startsBefore]
  trans a b c hab hb := by
    simp only [startsBefore, decide_eq_true_eq] at *
    exact lt_trans hab hb
  incomparable_trans a b c hab hba hb hc := by
    simp only [startsBefore, decide_eq_false_iff_not, not_lt] at *
    exact ⟨le_trans hb hab, le_trans hba hc⟩

def mergeAdjacent (limit : α → Except ε α) (current : ClosedRange α) :
    List (ClosedRange α) → Except ε (List (ClosedRange α))
  | [] => .ok [current]
  | r :: ranges => do
    let last ← limit current.upper
    if r.lower ≤ last then
      mergeAdjacent limit ⟨current.lower, max current.upper r.upper⟩ ranges
    else
      let merged ← mergeAdjacent limit r ranges
      return current :: merged

/-- The range from the first merged range to the last one. -/
def mergedHull (limit : α → Except ε α) : List (ClosedRange α) → Except ε (Option (ClosedRange α))
  | [] => .ok none
  | first :: ranges => do
    let merged ← mergeAdjacent limit first ranges
    let front := merged.headD first
    if merged.length = 1 then
      return some ⟨front.lower, front.upper⟩
    else
      return some ⟨front.lower, (merged.getLastD first).upper⟩

/-- No value lies between the ends of the range: it is not empty, or its lower end is
next to its upper end. -/
def Gapless (r : ClosedRange α) : Prop := ∀ v, r.upper < v → r.lower ≤ v

theorem gapless_of_le (h : r.lower ≤ r.upper) : r.Gapless :=
  fun _ hv => h.trans hv.le

variable {ranges : List (ClosedRange α)}

theorem mergeAdjacent_cons_ok {current : ClosedRange α} {merged : List (ClosedRange α)}
    (h : mergeAdjacent limit current (r :: ranges) = .ok merged) :
    ∃ last, limit current.upper = .ok last ∧
      ((r.lower ≤ last ∧ mergeAdjacent limit ⟨current.lower, max current.upper r.upper⟩ ranges = .ok merged) ∨
        (last < r.lower ∧ ∃ rest, mergeAdjacent limit r ranges = .ok rest ∧ merged = current :: rest)) := by
  rw [mergeAdjacent] at h
  cases hl : limit current.upper with
  | error e =>
    rw [hl] at h
    cases h
  | ok last =>
    rw [hl] at h
    change (if r.lower ≤ last then _ else _) = _ at h
    refine ⟨last, rfl, ?_⟩
    split at h
    case isTrue hle => exact .inl ⟨hle, h⟩
    case isFalse hlt =>
      cases hr : mergeAdjacent limit r ranges with
      | error e =>
        rw [hr] at h
        cases h
      | ok rest =>
        rw [hr] at h
        cases h
        exact .inr ⟨not_le.mp hlt, rest, rfl, rfl⟩

/-- The merged ranges start where the running one does, and the last of them reaches
as far as any range that was merged. -/
theorem mergeAdjacent_hull (hli : ∀ x y, limit x = .ok y → x ≤ y) :
    ∀ (ranges : List (ClosedRange α)) (current : ClosedRange α) {merged : List (ClosedRange α)},
      (∀ r ∈ ranges, r.Gapless) → mergeAdjacent limit current ranges = .ok merged →
      ∃ first last, merged.head? = some first ∧ merged.getLast? = some last ∧ first.lower = current.lower ∧
        ∀ v, v ≤ last.upper ↔ ∃ r ∈ current :: ranges, v ≤ r.upper := by
  intro ranges
  induction ranges with
  | nil =>
    intro current merged _ h
    cases h
    exact ⟨current, current, rfl, rfl, rfl, by simp⟩
  | cons r ranges ih =>
    intro current merged hg h
    have hr : ∀ s ∈ ranges, s.Gapless := fun s hs => hg s (mem_cons_of_mem r hs)
    obtain ⟨bound, hb, ⟨-, hm⟩ | ⟨hlt, rest, hm, rfl⟩⟩ := mergeAdjacent_cons_ok h
    · obtain ⟨first, last, hf, hl, hlo, hu⟩ := ih _ hr hm
      refine ⟨first, last, hf, hl, hlo, fun v => ?_⟩
      rw [hu]
      simp [or_assoc]
    · obtain ⟨first, last, hf, hl, -, hu⟩ := ih r hr hm
      -- A range beyond the limit also ends beyond the running one.
      have hen : current.upper ≤ r.upper := by
        by_contra hgt
        have hst := hg r mem_cons_self current.upper (not_le.mp hgt)
        exact absurd (hlt.trans_le hst) (not_lt.mpr (hli _ _ hb))
      refine ⟨current, last, rfl, ?_, rfl, fun v => ?_⟩
      · rw [getLast?_cons, hl]
        rfl
      · rw [hu]
        simp only [mem_cons, exists_eq_or_imp]
        constructor
        · exact .inr
        · rintro (hv | hv)
          · exact .inl (hv.trans hen)
          · exact hv

theorem mergeAdjacent_ok : ∀ (ranges : List (ClosedRange α)) (current : ClosedRange α),
      (∀ r ∈ (current :: ranges).dropLast, ∃ last, limit r.upper = .ok last) →
      ∃ merged, mergeAdjacent limit current ranges = .ok merged := by
  intro ranges
  induction ranges with
  | nil => exact fun current _ => ⟨[current], rfl⟩
  | cons r ranges ih =>
    intro current h
    obtain ⟨last, hl⟩ := h current mem_cons_self
    have ht : ∀ s ∈ (r :: ranges).dropLast, ∃ last, limit s.upper = .ok last :=
      fun s hs => h s (mem_cons_of_mem _ hs)
    rw [mergeAdjacent, hl]
    change ∃ merged, (if r.lower ≤ last then _ else _) = _
    split
    · refine ih _ fun s hs => ?_
      cases ranges with
      | nil => cases hs
      | cons r' ranges =>
        rcases mem_cons.mp hs with rfl | hs
        · show ∃ last, limit (max current.upper r.upper) = .ok last
          rcases max_choice current.upper r.upper with hm | hm
          · exact ⟨last, by rw [hm, hl]⟩
          · rw [hm]
            exact ht r mem_cons_self
        · exact ht s (mem_cons_of_mem _ hs)
    · obtain ⟨rest, hr⟩ := ih r ht
      exact ⟨current :: rest, by rw [hr]; rfl⟩

theorem mergeAdjacent_limit (hd : ∀ x y last, x ≤ y → limit y = .ok last → ∃ last', limit x = .ok last') :
    ∀ (ranges : List (ClosedRange α)) (current : ClosedRange α) {merged : List (ClosedRange α)},
      mergeAdjacent limit current ranges = .ok merged →
      ∀ r ∈ (current :: ranges).dropLast, ∃ last, limit r.upper = .ok last := by
  intro ranges
  induction ranges with
  | nil =>
    intro current merged _ r hr
    cases hr
  | cons r ranges ih =>
    intro current merged h
    obtain ⟨last, hl, hc⟩ := mergeAdjacent_cons_ok h
    refine forall_mem_cons.mpr ⟨⟨last, hl⟩, ?_⟩
    rcases hc with ⟨-, hme⟩ | ⟨-, rest, hme, -⟩
    · have hm := ih _ hme
      cases ranges with
      | nil => exact forall_mem_nil _
      | cons r' ranges =>
        rw [dropLast_cons_cons, forall_mem_cons] at hm
        obtain ⟨⟨bound, hb⟩, hre⟩ := hm
        exact forall_mem_cons.mpr ⟨hd _ _ bound (le_max_right current.upper r.upper) hb, hre⟩
    · exact ih r hme

theorem mergedHull_cons_isOk {first : ClosedRange α} {merged : List (ClosedRange α)}
    (h : mergeAdjacent limit first ranges = .ok merged) :
    ∃ hu, mergedHull limit (first :: ranges) = .ok (some hu) := by
  rw [mergedHull, h]
  by_cases hl : merged.length = 1
  · exact ⟨⟨(merged.headD first).lower, (merged.headD first).upper⟩, if_pos hl⟩
  · exact ⟨⟨(merged.headD first).lower, (merged.getLastD first).upper⟩, if_neg hl⟩

theorem mergedHull_ok (hli : ∀ x y, limit x = .ok y → x ≤ y) (hne : ranges ≠ [])
    (hso : Sorted startsBefore ranges) (hg : ∀ r ∈ ranges, r.Gapless) {hu : Option (ClosedRange α)}
    (h : mergedHull limit ranges = .ok hu) :
    ∃ r, hu = some r ∧ (∀ v, r.lower ≤ v ↔ ∃ s ∈ ranges, s.lower ≤ v) ∧
      ∀ v, v ≤ r.upper ↔ ∃ s ∈ ranges, v ≤ s.upper := by
  cases ranges with
  | nil => exact absurd rfl hne
  | cons start ranges =>
    rw [mergedHull] at h
    cases hm : mergeAdjacent limit start ranges with
    | error e =>
      rw [hm] at h
      cases h
    | ok merged =>
      rw [hm] at h
      obtain ⟨first, last, hf, hl, hlo, hup⟩ :=
        mergeAdjacent_hull hli ranges start (fun s hs => hg s (mem_cons_of_mem _ hs)) hm
      have hh : merged.headD start = first := by rw [headD_eq_head?_getD, hf]; rfl
      have hb : merged.getLastD start = last := by rw [getLastD_eq_getLast?, hl]; rfl
      have hst : ∀ v, first.lower ≤ v ↔ ∃ s ∈ start :: ranges, s.lower ≤ v := by
        intro v
        rw [hlo]
        constructor
        · exact fun hv => ⟨start, mem_cons_self, hv⟩
        · rintro ⟨s, hs, hv⟩
          rcases mem_cons.mp hs with rfl | hs
          · exact hv
          · have hle := (pairwise_cons.mp hso).1 s hs
            simp only [startsBefore, decide_eq_false_iff_not, not_lt] at hle
            exact hle.trans hv
      change (if merged.length = 1 then _ else _) = _ at h
      rw [hh, hb] at h
      split at h
      case isTrue hlen =>
        cases h
        obtain ⟨only, rfl⟩ := length_eq_one_iff.mp hlen
        cases hf
        cases hl
        exact ⟨_, rfl, hst, hup⟩
      case isFalse =>
        cases h
        exact ⟨_, rfl, hst, hup⟩

end ClosedRange

end Bolt.Lib.Intervals
