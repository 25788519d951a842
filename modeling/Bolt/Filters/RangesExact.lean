import Bolt.Filters.Ranges

/-!
# Which range filters merge exactly

The filter that a merge returns should accept what both filters accept. One range
cannot represent what is left on both sides of a range taken out of another one, and
closed timestamp ranges keep the ends of what is taken out, so the merge is exact only
for the bounds described here.
-/

namespace Bolt.Filters

open Lib.SignedInts SignedInt Lib.Intervals ClosedRange Lib.Sorting NegatedTimestampRange HugeintFilter RangeFilter Filters.Filter
open List hiding contains_iff

/-- The merge returns the intersection, in whatever order the sort leaves ranges that
start at the same value. -/
def MergesExactly {κ α : Type} [ValueFilter κ α] (merge : ComparisonSort → κ → κ → Except FilterError (Filter κ))
    (f g : κ) : Prop :=
  ∀ S, ∃ merged, merge S f g = .ok merged ∧ IsIntersection (.ofValue f) (.ofValue g) merged

/-- A value lies between the least lower end and the greatest upper end of the ranges. -/
def InHull {α : Type} [LinearOrder α] (ranges : List (ClosedRange α)) (v : α) : Prop :=
  (∃ r ∈ ranges, r.lower ≤ v) ∧ ∃ r ∈ ranges, v ≤ r.upper

variable {nullAllowed : Bool}

section

variable {α : Type} [LinearOrder α] {S : ComparisonSort} {limit : α → Except FilterError α}
  (hli : ∀ x y, limit x = .ok y → x ≤ y) {ranges : List (ClosedRange α)} (hne : ranges ≠ [])
  (hg : ∀ r ∈ ranges, r.Gapless)

include hli hne hg

theorem combineRanges_spec {merged : Filter (RangeFilter α)} (h : combineRanges S limit ranges nullAllowed = .ok merged) :
    ∃ hu, merged = .ofValue (.range hu nullAllowed) ∧ ∀ v, hu.contains v = true ↔ InHull ranges v := by
  have hp := S.perm _ ranges (strictWeak_startsBefore)
  have hso := S.sorted _ ranges (strictWeak_startsBefore)
  rw [combineRanges] at h
  cases hm : mergedHull limit (S.sort startsBefore ranges) with
  | error e =>
    rw [hm] at h
    cases h
  | ok result =>
    rw [hm] at h
    have hne' : S.sort startsBefore ranges ≠ [] := by
      intro hni
      rw [hni] at hp
      exact hne hp.nil_eq.symm
    obtain ⟨hu, rfl, hl, hup⟩ := mergedHull_ok hli hne' hso
      (fun r hr => hg r (hp.mem_iff.mp hr)) hm
    cases h
    refine ⟨hu, rfl, fun v => ?_⟩
    rw [contains_iff, hl, hup, InHull]
    simp only [hp.mem_iff]

theorem combineRanges_ok (hl : ∀ r ∈ (S.sort startsBefore ranges).dropLast, ∃ last, limit r.upper = .ok last)
    (nullAllowed : Bool) :
    ∃ hu, combineRanges S limit ranges nullAllowed = .ok (.ofValue (.range hu nullAllowed)) ∧
      ∀ v, hu.contains v = true ↔ InHull ranges v := by
  have ho : ∃ merged, combineRanges S limit ranges nullAllowed = .ok merged := by
    rw [combineRanges]
    cases hso : S.sort startsBefore ranges with
    | nil => exact ⟨_, rfl⟩
    | cons first rest =>
      obtain ⟨merged, hme⟩ := mergeAdjacent_ok rest first (hso ▸ hl)
      obtain ⟨hu, hh⟩ := mergedHull_cons_isOk hme
      exact ⟨.ofValue (.range hu nullAllowed), by rw [hh]; rfl⟩
  obtain ⟨merged, hme⟩ := ho
  obtain ⟨hu, rfl, hh⟩ := combineRanges_spec hli hne hg hme
  exact ⟨hu, hme, hh⟩

end

/-- Range filters test values and null as their ranges say. -/
class LawfulRangeFilter (α : Type) [LinearOrder α] [ValueFilter (RangeFilter α) α] : Prop where
  test_eq : ∀ (f : RangeFilter α) v, ValueFilter.test f v = f.testValue v
  nullAllowed_eq : ∀ f : RangeFilter α, ValueFilter.nullAllowed f = f.nullAllowed

instance : LawfulRangeFilter Timestamp := ⟨fun _ _ => rfl, fun _ => rfl⟩

instance : LawfulRangeFilter Int128 := ⟨fun _ _ => rfl, fun _ => rfl⟩

section Merges

variable {α : Type} [LinearOrder α] [ValueFilter (RangeFilter α) α] [LawfulRangeFilter α]
  {merge : ComparisonSort → RangeFilter α → RangeFilter α → Except FilterError (Filter (RangeFilter α))}

theorem isIntersection_range (f g merged : RangeFilter α) : IsIntersection (.ofValue f) (.ofValue g) (.ofValue merged) ↔
      (∀ v, merged.testValue v = true ↔ f.testValue v = true ∧ g.testValue v = true) ∧
        merged.nullAllowed = (f.nullAllowed && g.nullAllowed) := by
  simp [IsIntersection, LawfulRangeFilter.test_eq, LawfulRangeFilter.nullAllowed_eq]

/-- A merge that returns one range filter whatever the sort does is exact if the filter
accepts what both accept. -/
theorem mergesExactly_ok {f g merged : RangeFilter α} (hn : merged.nullAllowed = (f.nullAllowed && g.nullAllowed))
    (hm : ∀ S, merge S f g = .ok (.ofValue merged)) :
    MergesExactly merge f g ↔ ∀ v, merged.testValue v = true ↔ f.testValue v = true ∧ g.testValue v = true := by
  constructor
  · intro h
    obtain ⟨result, hr, hb⟩ := h .insertion
    rw [hm] at hr
    cases hr
    exact ((isIntersection_range f g merged).mp hb).1
  · intro h S
    exact ⟨_, hm S, (isIntersection_range f g merged).mpr ⟨h, hn⟩⟩

/-- A merge that returns the hull of some parts is exact if the hull holds the values
that both filters accept. -/
theorem mergesExactly_hull {f g : RangeFilter α} {ranges : List (ClosedRange α)}
    (hn : nullAllowed = (f.nullAllowed && g.nullAllowed))
    (hm : ∀ S, ∃ hu, merge S f g = .ok (.ofValue (.range hu nullAllowed)) ∧
      ∀ v, hu.contains v = true ↔ InHull ranges v) :
    MergesExactly merge f g ↔ ∀ v, InHull ranges v ↔ f.testValue v = true ∧ g.testValue v = true := by
  constructor
  · intro h v
    obtain ⟨merged, hme, hb⟩ := h .insertion
    obtain ⟨hu, ho, hh⟩ := hm .insertion
    rw [ho] at hme
    cases hme
    rw [← hh v]
    exact ((isIntersection_range f g _).mp hb).1 v
  · intro h S
    obtain ⟨hu, ho, hh⟩ := hm S
    refine ⟨_, ho, (isIntersection_range f g _).mpr ⟨fun v => ?_, hn⟩⟩
    show hu.contains v = true ↔ _
    rw [hh, h]

/-- Overlapping negated ranges, the first not starting later, are one negated range. -/
theorem mergesExactly_overlap {f g : RangeFilter α} {bounds other : ClosedRange α}
    (hn : nullAllowed = (f.nullAllowed && g.nullAllowed)) (hs : bounds.lower ≤ other.lower)
    (ho : other.lower ≤ bounds.upper)
    (hac : ∀ v, (f.testValue v = true ∧ g.testValue v = true) ↔ ¬bounds.contains v = true ∧ ¬other.contains v = true)
    (hm : ∀ S, merge S f g =
      .ok (.ofValue (.negatedRange ⟨bounds.lower, max bounds.upper other.upper⟩ nullAllowed))) :
    MergesExactly merge f g := by
  have hr : (negatedRange ⟨bounds.lower, max bounds.upper other.upper⟩ nullAllowed).nullAllowed =
      (f.nullAllowed && g.nullAllowed) := hn
  refine (mergesExactly_ok hr hm).mpr fun v => ?_
  rw [hac]
  simp only [testValue, Bool.not_eq_true', ← Bool.not_eq_true, contains_iff]
  grind

end Merges

section Timestamps

theorem combineTimestampRanges_ok (S : ComparisonSort) {ranges : List (ClosedRange Timestamp)} (hne : ranges ≠ [])
    (hle : ∀ r ∈ ranges, r.lower ≤ r.upper) (nullAllowed : Bool) :
    ∃ hu, combineTimestampRanges S ranges nullAllowed = .ok (.ofValue (.range hu nullAllowed)) ∧
      ∀ v, hu.contains v = true ↔ InHull ranges v := by
  have hli : ∀ x y : Timestamp, (Except.ok x : Except FilterError Timestamp) = .ok y → x ≤ y := by
    intro x y h
    cases h
    exact le_refl x
  exact combineRanges_ok hli hne (fun r hr => gapless_of_le (hle r hr)) (fun r _ => ⟨r.upper, rfl⟩) _

/-- The bounds for which taking `bounds` out of `other` is exact: the negated range
covers every timestamp, or it is empty and does not widen the other range. -/
def NegatedTimestampRange.ExactOn (bounds other : ClosedRange Timestamp) : Prop :=
  (bounds.lower = Timestamp.min ∧ bounds.upper = Timestamp.max) ∨
    (bounds.upper < bounds.lower ∧
      ((other.lower ≤ other.upper ∧ other.lower ≤ bounds.lower ∧ bounds.upper ≤ other.upper) ∨
        (other.upper < other.lower ∧ other.upper < bounds.lower ∧ bounds.upper < other.lower)))

/-- The bounds of two negated ranges, the first not starting later, that merge exactly:
they overlap, or both are empty. -/
def NegatedTimestampRange.ExactWith (bounds other : ClosedRange Timestamp) : Prop :=
  other.lower ≤ bounds.upper ∨ (bounds.upper < bounds.lower ∧ other.upper < other.lower)

def TimestampFilter.Exact : RangeFilter Timestamp → RangeFilter Timestamp → Prop
  | .range _ _, .range _ _ => True
  | .range _ _, .negatedRange _ _ => False
  | .negatedRange bounds _, .range other _ => ExactOn bounds other
  | .negatedRange bounds _, .negatedRange other _ =>
    if other.lower < bounds.lower then ExactWith other bounds
    else ExactWith bounds other

section Bounds

variable {α : Type} [LinearOrder α] {l u a b v : α}

/-- Closed parts around two negated ranges keep their ends. -/
theorem gap_iff [BoundedOrder α] (hu : u < a) :
    (∀ v, (⊥ < l ∧ ⊥ ≤ v ∨ u ≤ v ∨ b < ⊤ ∧ b ≤ v) ∧ (⊥ < l ∧ v ≤ l ∨ v ≤ a ∨ b < ⊤ ∧ v ≤ ⊤) ↔
      ¬(l ≤ v ∧ v ≤ u) ∧ ¬(a ≤ v ∧ v ≤ b)) ↔ u < l ∧ b < a := by
  constructor
  · intro hv
    have ha := hv a
    grind
  · intro hlt v
    have hv : ⊥ ≤ v ∧ v ≤ ⊤ := ⟨bot_le, le_top⟩
    grind

/-- Only the negation of everything accepts none of the values it covers. -/
theorem negation_iff [BoundedOrder α] (hl : l ≤ a) (hu : b ≤ u) (hlb : l ≤ b) (ha : a ≤ u) :
    (∀ v, ¬(l ≤ v ∧ v ≤ u) ↔ ¬(l ≤ v ∧ v ≤ u) ∧ a ≤ v ∧ v ≤ b) ↔ l = ⊥ ∧ u = ⊤ := by
  constructor
  · intro hv
    have hv₁ := hv ⊥
    have hv₂ := hv ⊤
    grind
  · rintro ⟨rfl, rfl⟩ v
    have hv₁ : ⊥ ≤ v := bot_le
    have hv₂ : v ≤ ⊤ := le_top
    grind

end Bounds

variable {bounds other : ClosedRange Timestamp}

theorem exists_mem_partsAround {p : ClosedRange Timestamp → Prop} : (∃ r ∈ partsAround bounds other, p r) ↔
      (other.lower < bounds.lower ∧ p ⟨other.lower, bounds.lower⟩) ∨
        (bounds.upper < other.upper ∧ p ⟨bounds.upper, other.upper⟩) := by
  simp only [partsAround, mem_append, mem_ite_nil_right, mem_singleton,
    or_and_right, exists_or, and_assoc, exists_and_left, exists_eq_left]

theorem exists_mem_partsOfGap {p : ClosedRange Timestamp → Prop} : (∃ r ∈ partsOfGap bounds other, p r) ↔
      (⊥ < bounds.lower ∧ p ⟨⊥, bounds.lower⟩) ∨ p ⟨bounds.upper, other.lower⟩ ∨
        (other.upper < ⊤ ∧ p ⟨other.upper, ⊤⟩) := by
  have hmi : Timestamp.min = ⊥ := rfl
  have hma : Timestamp.max = ⊤ := rfl
  simp only [partsOfGap, hmi, hma, mem_append, mem_ite_nil_right,
    mem_singleton, or_and_right, exists_or, and_assoc, exists_and_left, exists_eq_left, or_assoc]

theorem mergesExactly_timestampRanges (bounds other : ClosedRange Timestamp) (nullAllowed otherNull : Bool) :
    MergesExactly TimestampFilter.mergeWith (.range bounds nullAllowed) (.range other otherNull) := by
  intro S
  rw [TimestampFilter.mergeWith, TimestampRange.mergeWith]
  split
  case isTrue hle =>
    refine ⟨_, rfl, (isIntersection_range _ _ _).mpr ⟨fun v => ?_, rfl⟩⟩
    simp only [testValue, contains_iff]
    grind
  case isFalse hlt =>
    refine ⟨_, rfl, fun v => ?_, testNull_nullOrFalse _⟩
    simp only [accepts_nullOrFalse, accepts_ofValue, false_iff]
    show ¬(bounds.contains v = true ∧ other.contains v = true)
    simp only [contains_iff]
    grind

theorem mergesExactly_mergeRange (bounds other : ClosedRange Timestamp) (nullAllowed otherNull : Bool) :
    MergesExactly TimestampFilter.mergeWith (.negatedRange bounds nullAllowed) (.range other otherNull) ↔
      ExactOn bounds other := by
  have hm : ∀ S, TimestampFilter.mergeWith S (.negatedRange bounds nullAllowed) (.range other otherNull) =
      mergeRange S bounds other (nullAllowed && otherNull) := fun _ => rfl
  have hmi : Timestamp.min = ⊥ := rfl
  have hma : Timestamp.max = ⊤ := rfl
  have hb : ⊥ ≤ bounds.lower ∧ ⊥ ≤ other.lower ∧ ⊥ ≤ other.upper := ⟨bot_le, bot_le, bot_le⟩
  have ht : bounds.upper ≤ ⊤ ∧ other.upper ≤ ⊤ ∧ other.lower ≤ ⊤ := ⟨le_top, le_top, le_top⟩
  unfold mergeRange at hm
  unfold ExactOn
  by_cases ho : other.upper < bounds.lower ∨ bounds.upper < other.lower
  · simp only [if_pos ho] at hm
    rw [mergesExactly_ok rfl hm]
    simp only [testValue, Bool.not_eq_true', ← Bool.not_eq_true, contains_iff]
    grind
  · simp only [if_neg ho] at hm
    rw [not_or, not_lt, not_lt] at ho
    by_cases hin : bounds.lower ≤ other.lower ∧ other.upper ≤ bounds.upper
    · simp only [if_pos hin] at hm
      rw [mergesExactly_ok rfl hm]
      simp only [testValue, Bool.not_eq_true', ← Bool.not_eq_true, contains_iff]
      rw [negation_iff hin.1 hin.2 ho.1 ho.2]
      grind
    · simp only [if_neg hin] at hm
      have hle : ∀ r ∈ partsAround bounds other, r.lower ≤ r.upper := by
        simp only [partsAround, mem_append, mem_ite_nil_right, mem_singleton]
        rintro r (⟨hlt, rfl⟩ | ⟨hlt, rfl⟩)
        · exact hlt.le
        · exact hlt.le
      have hne : partsAround bounds other ≠ [] := by
        simp only [partsAround, ne_eq, append_eq_nil_iff, ite_eq_right_iff, cons_ne_nil, imp_false, not_lt]
        exact hin
      have hh := fun S => hm S ▸ combineTimestampRanges_ok S hne hle (nullAllowed && otherNull)
      rw [mergesExactly_hull rfl hh]
      simp only [InHull, exists_mem_partsAround, testValue, Bool.not_eq_true', ← Bool.not_eq_true, contains_iff]
      grind

theorem mergesExactly_mergeNegated {f g : RangeFilter Timestamp} (hn : nullAllowed = (f.nullAllowed && g.nullAllowed))
    (hs : bounds.lower ≤ other.lower)
    (hac : ∀ v, (f.testValue v = true ∧ g.testValue v = true) ↔ ¬bounds.contains v = true ∧ ¬other.contains v = true)
    (hm : ∀ S, TimestampFilter.mergeWith S f g = mergeNegated S bounds other nullAllowed) :
    MergesExactly TimestampFilter.mergeWith f g ↔ ExactWith bounds other := by
  unfold mergeNegated at hm
  unfold ExactWith
  by_cases hga : bounds.upper < other.lower
  · simp only [if_pos hga] at hm
    have hle : ∀ r ∈ partsOfGap bounds other, r.lower ≤ r.upper := by
      simp only [partsOfGap, mem_append, mem_ite_nil_right, mem_singleton]
      rintro r ((⟨hlt, rfl⟩ | rfl) | ⟨hlt, rfl⟩)
      · exact hlt.le
      · exact hga.le
      · exact hlt.le
    have hne : partsOfGap bounds other ≠ [] := by
      simp [partsOfGap]
    have hh := fun S => hm S ▸ combineTimestampRanges_ok S hne hle nullAllowed
    rw [mergesExactly_hull hn hh]
    simp only [InHull, exists_mem_partsOfGap, hac, contains_iff]
    rw [gap_iff hga]
    grind
  · simp only [if_neg hga] at hm
    have ho := not_lt.mp hga
    exact iff_of_true (mergesExactly_overlap hn hs ho hac hm)
      (.inl ho)

theorem mergesExactly_timestamp_iff (f g : RangeFilter Timestamp) :
    MergesExactly TimestampFilter.mergeWith f g ↔ TimestampFilter.Exact f g := by
  cases f with
  | range bounds nullAllowed =>
    cases g with
    | range other otherNull =>
      exact iff_of_true (mergesExactly_timestampRanges bounds other nullAllowed otherNull) trivial
    | negatedRange other otherNull =>
      refine iff_of_false (fun h => ?_) id
      obtain ⟨merged, hme, -⟩ := h .insertion
      cases hme
  | negatedRange bounds nullAllowed =>
    cases g with
    | range other otherNull => exact mergesExactly_mergeRange ..
    | negatedRange other otherNull =>
      rw [TimestampFilter.Exact]
      split
      case isTrue hlt =>
        refine mergesExactly_mergeNegated (Bool.and_comm ..) hlt.le (fun v => ?_) fun S => if_pos hlt
        simp only [testValue, Bool.not_eq_true', Bool.not_eq_true]
        exact and_comm
      case isFalse hle =>
        refine mergesExactly_mergeNegated rfl (not_lt.mp hle) (fun v => ?_) fun S => if_neg hle
        simp only [testValue, Bool.not_eq_true', Bool.not_eq_true]

end Timestamps

section Hugeints

theorem nextHugeint_ok {x y : Int128} : nextHugeint x = .ok y ↔ y.val = x.val + 1 := by
  rw [← succ?_eq_some, nextHugeint]
  cases x.succ? with
  | none | some z => simp [checked]

theorem le_of_nextHugeint {x y : Int128} (h : nextHugeint x = .ok y) : x ≤ y := by
  rw [le_iff, nextHugeint_ok.mp h]
  omega

theorem exists_nextHugeint {x y : Int128} (h : x < y) : ∃ z, nextHugeint x = .ok z := by
  obtain ⟨z, -, hz⟩ := exists_succ? h
  exact ⟨z, nextHugeint_ok.mpr hz⟩

/-- The parts of a hugeint merge combine if they are in order and only the last of them
reaches the greatest value. -/
theorem combineHugeintRanges_ok (S : ComparisonSort) {ranges : List (ClosedRange Int128)} (hne : ranges ≠ [])
    (ho : ranges.Pairwise fun r s => r.lower < s.lower) (hg : ∀ r ∈ ranges, r.Gapless)
    (hl : ∀ r ∈ ranges.dropLast, r.upper < ⊤) (nullAllowed : Bool) :
    ∃ hu, combineHugeintRanges S ranges nullAllowed = .ok (.ofValue (.range hu nullAllowed)) ∧
      ∀ v, hu.contains v = true ↔ InHull ranges v := by
  have hso : S.sort startsBefore ranges = ranges :=
    S.sort_eq_self strictWeak_startsBefore (ho.imp fun h => decide_eq_true h)
  refine combineRanges_ok (fun _ _ h => le_of_nextHugeint h) hne hg (fun r hr => ?_) _
  rw [hso] at hr
  exact exists_nextHugeint (hl r hr)

theorem combineHugeintRanges_singleton (S : ComparisonSort) (range : ClosedRange Int128) (nullAllowed : Bool) :
    combineHugeintRanges S [range] nullAllowed = .ok (.ofValue (.range range nullAllowed)) := by
  rw [combineHugeintRanges, combineRanges, S.sort_eq_self strictWeak_startsBefore (pairwise_singleton _ _)]
  rfl

theorem combineHugeintRanges_nil (S : ComparisonSort) (nullAllowed : Bool) :
    combineHugeintRanges S [] nullAllowed = .ok (nullOrFalse nullAllowed) := by
  rw [combineHugeintRanges, combineRanges, S.sort_eq_self strictWeak_startsBefore Pairwise.nil]
  rfl

/-- A part that reaches the greatest value and may come before another part makes the
merge overflow. -/
theorem combineHugeintRanges_overflow {ranges : List (ClosedRange Int128)} {r s : ClosedRange Int128}
    (hsu : [s, r].Sublist ranges) (ht : r.upper = ⊤) (hle : r.lower ≤ s.lower) (nullAllowed : Bool)
    {merged : HugeintFilter} :
    combineHugeintRanges .reversedInsertion ranges nullAllowed ≠ .ok merged := by
  intro h
  have hme : r ∈ (ComparisonSort.reversedInsertion.sort startsBefore ranges).dropLast :=
    ComparisonSort.reversedInsertion_dropLast (decide_eq_false (not_lt.mpr hle)) hsu
  rw [combineHugeintRanges, combineRanges] at h
  cases hso : ComparisonSort.reversedInsertion.sort startsBefore ranges with
  | nil =>
    rw [hso] at hme
    cases hme
  | cons first rest =>
    rw [hso] at h hme
    cases hm : mergeAdjacent nextHugeint first rest with
    | error e =>
      rw [mergedHull, hm] at h
      cases h
    | ok parts =>
      have hd : ∀ x y last : Int128, x ≤ y → nextHugeint y = .ok last → ∃ last', nextHugeint x = .ok last' := by
        intro x y last hx hy
        refine exists_nextHugeint (y := last) (lt_iff.mpr ?_)
        have hv := nextHugeint_ok.mp hy
        have hxy' := le_iff.mp hx
        show x.val < last.val
        omega
      obtain ⟨last, hl⟩ := mergeAdjacent_limit hd rest first hm r hme
      rw [ht, nextHugeint, succ?_top] at hl
      cases hl

theorem partsOutside_ok {bits : ℕ} {lower upper : SignedInt bits} {range : ClosedRange (SignedInt bits)}
    (ho : ¬(range.upper < lower ∨ upper < range.lower)) :
    ∃ before after : SignedInt bits,
      (range.lower < lower → before.val = lower.val - 1) ∧ (upper < range.upper → after.val = upper.val + 1) ∧
      partsOutside lower upper range = .ok ((if range.lower < lower then [⟨range.lower, before⟩] else []) ++
        if upper < range.upper then [⟨after, range.upper⟩] else []) := by
  have hb : ∃ before : SignedInt bits, (range.lower < lower → before.val = lower.val - 1) ∧
      (range.lower < lower → lower.pred? = some before) := by
    by_cases h : range.lower < lower
    · obtain ⟨before, hp, hv⟩ := exists_pred? h
      exact ⟨before, fun _ => hv, fun _ => hp⟩
    · exact ⟨lower, fun h' => absurd h' h, fun h' => absurd h' h⟩
  have ha : ∃ after : SignedInt bits, (upper < range.upper → after.val = upper.val + 1) ∧
      (upper < range.upper → upper.succ? = some after) := by
    by_cases h : upper < range.upper
    · obtain ⟨after, hsucc, hv⟩ := exists_succ? h
      exact ⟨after, fun _ => hv, fun _ => hsucc⟩
    · exact ⟨upper, fun h' => absurd h' h, fun h' => absurd h' h⟩
  obtain ⟨before, hbval, hp⟩ := hb
  obtain ⟨after, haval, hsucc⟩ := ha
  refine ⟨before, after, hbval, haval, ?_⟩
  rw [partsOutside, if_neg ho]
  by_cases hl : range.lower < lower
  · by_cases hh : upper < range.upper
    · simp only [if_pos hl, if_pos hh, hp hl, hsucc hh]
      rfl
    · simp only [if_pos hl, if_neg hh, hp hl]
      rfl
  · by_cases hh : upper < range.upper
    · simp only [if_neg hl, if_pos hh, hsucc hh]
      rfl
    · simp only [if_neg hl, if_neg hh]
      rfl

theorem combineNegatedRangeOnHugeintRanges_singleton {S : ComparisonSort} {lower upper : Int128}
    {range : ClosedRange Int128} {parts : List (ClosedRange Int128)}
    (h : partsOutside lower upper range = .ok parts) :
    combineNegatedRangeOnHugeintRanges S lower upper [range] nullAllowed = combineHugeintRanges S parts nullAllowed := by
  rw [combineNegatedRangeOnHugeintRanges, mapM_cons, h, mapM_nil]
  show combineHugeintRanges S [parts].flatten nullAllowed = _
  rw [flatten_singleton]

/-- A range cannot represent what is left on both sides of a range taken out of it. -/
theorem mergesExactly_hugeintRange (bounds other : ClosedRange Int128) (nullAllowed otherNull : Bool) :
    MergesExactly mergeWith (.negatedRange bounds nullAllowed) (.range other otherNull) ↔
      ¬(other.lower < bounds.lower ∧ bounds.lower ≤ bounds.upper ∧ bounds.upper < other.upper) := by
  have hm : ∀ {parts}, partsOutside bounds.lower bounds.upper other = .ok parts →
      ∀ S, mergeWith S (.negatedRange bounds nullAllowed) (.range other otherNull) =
        combineHugeintRanges S parts (nullAllowed && otherNull) :=
    fun h S => combineNegatedRangeOnHugeintRanges_singleton h
  -- One part left: the merge is exact if the part is what is left of the range.
  have hsi : ∀ {part}, partsOutside bounds.lower bounds.upper other = .ok [part] →
      (∀ v, part.contains v = true ↔ ¬bounds.contains v = true ∧ other.contains v = true) →
      MergesExactly mergeWith (.negatedRange bounds nullAllowed) (.range other otherNull) := by
    intro part hp hlef
    refine (mergesExactly_ok rfl fun S =>
      (hm hp S).trans (combineHugeintRanges_singleton S part _)).mpr fun v => ?_
    simp only [testValue, hlef, Bool.not_eq_true', Bool.not_eq_true]
  by_cases ho : other.upper < bounds.lower ∨ bounds.upper < other.lower
  · refine iff_of_true (hsi (if_pos ho) fun v => ?_) (by grind)
    simp only [contains_iff]
    grind
  · obtain ⟨before, after, hbef, haf, hpa⟩ := partsOutside_ok ho
    by_cases hl : other.lower < bounds.lower
    · by_cases hh : bounds.upper < other.upper
      · rw [if_pos hl, if_pos hh, singleton_append] at hpa
        have hb := hbef (lt_iff.mp hl)
        have ha := haf (lt_iff.mp hh)
        simp only [lt_iff, le_iff, not_or, not_lt] at ho hl hh ⊢
        have hord : [ClosedRange.mk other.lower before, ⟨after, other.upper⟩].Pairwise fun r s => r.lower < s.lower :=
          pairwise_pair.mpr (lt_iff.mpr (by show other.lower.val < after.val; omega))
        have hg : ∀ r ∈ [ClosedRange.mk other.lower before, ⟨after, other.upper⟩], r.Gapless := by
          refine forall_mem_cons.mpr ⟨gapless_of_le ?_,
            forall_mem_singleton.mpr (gapless_of_le ?_)⟩
          · exact le_iff.mpr (by show other.lower.val ≤ before.val; omega)
          · exact le_iff.mpr (by show after.val ≤ other.upper.val; omega)
        have hbe : before < ⊤ := by
          refine lt_of_lt_of_le (b := bounds.lower) (lt_iff.mpr ?_) le_top
          omega
        have hhu := fun S => hm hpa S ▸ combineHugeintRanges_ok S (cons_ne_nil _ _) hord hg
          (forall_mem_singleton.mpr hbe) (nullAllowed && otherNull)
        rw [mergesExactly_hull rfl hhu]
        simp only [InHull, mem_cons, not_mem_nil, or_false, exists_eq_or_imp, exists_eq_left,
          testValue, Bool.not_eq_true', ← Bool.not_eq_true, contains_iff, le_iff]
        constructor
        · intro hv hal
          have hlo := hv bounds.lower
          omega
        · intro hal v
          omega
      · rw [if_pos hl, if_neg hh, append_nil] at hpa
        refine iff_of_true (hsi hpa fun v => ?_) (fun h => hh h.2.2)
        simp only [contains_iff, le_iff, lt_iff] at *
        omega
    · by_cases hh : bounds.upper < other.upper
      · rw [if_neg hl, if_pos hh, nil_append] at hpa
        refine iff_of_true (hsi hpa fun v => ?_) (fun h => hl h.1)
        simp only [contains_iff, le_iff, lt_iff] at *
        omega
      · rw [if_neg hl, if_neg hh, append_nil] at hpa
        refine iff_of_true (fun S => ?_) (fun h => hl h.1)
        refine ⟨_, (hm hpa S).trans (combineHugeintRanges_nil S _), fun v => ?_, testNull_nullOrFalse _⟩
        simp only [accepts_nullOrFalse, accepts_ofValue, false_iff]
        show ¬((!bounds.contains v) = true ∧ other.contains v = true)
        simp only [Bool.not_eq_true', ← Bool.not_eq_true, contains_iff]
        grind

section Parts

variable {bits : ℕ}

theorem rangeBelow_ok (lower : SignedInt bits) : ∃ last : SignedInt bits, (⊥ < lower → last.val = lower.val - 1) ∧
      rangeBelow lower = .ok (if ⊥ < lower then [⟨⊥, last⟩] else []) := by
  have hmi : SignedInt.min bits = ⊥ := rfl
  rw [rangeBelow, hmi]
  by_cases h : ⊥ < lower
  · obtain ⟨last, hp, hv⟩ := exists_pred? h
    refine ⟨last, fun _ => hv, ?_⟩
    rw [if_pos h, if_pos h, hp]
    rfl
  · exact ⟨lower, fun h' => absurd h' h, by rw [if_neg h, if_neg h]⟩

theorem rangeAbove_ok (upper : SignedInt bits) : ∃ first : SignedInt bits, (upper < ⊤ → first.val = upper.val + 1) ∧
      rangeAbove upper = .ok (if upper < ⊤ then [⟨first, ⊤⟩] else []) := by
  have hma : SignedInt.max bits = ⊤ := rfl
  rw [rangeAbove, hma]
  by_cases h : upper < ⊤
  · obtain ⟨first, hsucc, hv⟩ := exists_succ? h
    refine ⟨first, fun _ => hv, ?_⟩
    rw [if_pos h, if_pos h, hsucc]
    rfl
  · exact ⟨upper, fun h' => absurd h' h, by rw [if_neg h, if_neg h]⟩

theorem rangeBetween_ok {upper lower : SignedInt bits} (h : upper < lower) :
    ∃ first last : SignedInt bits, first.val = upper.val + 1 ∧ last.val = lower.val - 1 ∧
      rangeBetween upper lower = .ok [⟨first, last⟩] := by
  have hb : upper < SignedInt.max bits ∧ SignedInt.min bits < lower :=
    ⟨h.trans_le le_top, lt_of_le_of_lt bot_le h⟩
  obtain ⟨first, hsucc, hf⟩ := exists_succ? h
  obtain ⟨last, hp, hl⟩ := exists_pred? h
  refine ⟨first, last, hf, hl, ?_⟩
  rw [rangeBetween, if_pos hb, hsucc, hp]
  rfl

end Parts

/-- The ends of the parts that two negated ranges with a gap between them leave. -/
structure GapParts (bounds other : ClosedRange Int128) where
  below : Int128
  betweenFirst : Int128
  betweenLast : Int128
  above : Int128
  gap : bounds.upper < other.lower
  below_eq : ⊥ < bounds.lower → below.val = bounds.lower.val - 1
  betweenFirst_eq : betweenFirst.val = bounds.upper.val + 1
  betweenLast_eq : betweenLast.val = other.lower.val - 1
  above_eq : other.upper < ⊤ → above.val = other.upper.val + 1

namespace GapParts

variable {bounds other : ClosedRange Int128}

def ranges (parts : GapParts bounds other) : List (ClosedRange Int128) :=
  (if ⊥ < bounds.lower then [⟨⊥, parts.below⟩] else []) ++ [⟨parts.betweenFirst, parts.betweenLast⟩] ++
    if other.upper < ⊤ then [⟨parts.above, ⊤⟩] else []

variable (parts : GapParts bounds other)

theorem ranges_ne_nil : parts.ranges ≠ [] := by simp [ranges]

theorem exists_mem_ranges {p : ClosedRange Int128 → Prop} : (∃ r ∈ parts.ranges, p r) ↔
    (⊥ < bounds.lower ∧ p ⟨⊥, parts.below⟩) ∨ p ⟨parts.betweenFirst, parts.betweenLast⟩ ∨
      (other.upper < ⊤ ∧ p ⟨parts.above, ⊤⟩) := by
  simp only [ranges, mem_append, mem_ite_nil_right, mem_singleton, or_and_right, exists_or, and_assoc,
    exists_and_left, exists_eq_left, or_assoc]

theorem gapless : ∀ r ∈ parts.ranges, r.Gapless := by
  intro r hr
  simp only [ranges, mem_append, mem_ite_nil_right, mem_singleton] at hr
  rcases hr with (⟨-, rfl⟩ | rfl) | ⟨-, rfl⟩
  · exact gapless_of_le bot_le
  · intro v hv
    have hf := parts.betweenFirst_eq
    have hl := parts.betweenLast_eq
    have hga := parts.gap
    simp only [lt_iff, le_iff] at hga hv ⊢
    omega
  · exact gapless_of_le le_top

theorem inHull_iff (v : Int128) : InHull parts.ranges v ↔
    (⊥ < bounds.lower ∨ bounds.upper < v ∨ (other.upper < ⊤ ∧ other.upper < v)) ∧
      ((⊥ < bounds.lower ∧ v < bounds.lower) ∨ v < other.lower ∨ other.upper < ⊤) := by
  have hbe := parts.below_eq
  have hf := parts.betweenFirst_eq
  have hl := parts.betweenLast_eq
  have hab := parts.above_eq
  have hb : (⊥ : Int128).val ≤ v.val := le_iff.mp bot_le
  have ht : v.val ≤ (⊤ : Int128).val := le_iff.mp le_top
  simp only [InHull, exists_mem_ranges, le_iff, lt_iff] at *
  omega

theorem pairwise_ranges (hl : bounds.upper < other.upper) : parts.ranges.Pairwise fun r s => r.lower < s.lower := by
  have hf := parts.betweenFirst_eq
  have hab := parts.above_eq
  have hb : (⊥ : Int128).val ≤ bounds.upper.val := le_iff.mp bot_le
  rw [ranges]
  split <;> split <;> simp [lt_iff] at * <;> omega

theorem upper_lt_top : ∀ r ∈ parts.ranges.dropLast, r.upper < ⊤ := by
  have hb : parts.betweenLast < ⊤ := by
    refine lt_of_lt_of_le (b := other.lower) (lt_iff.mpr ?_) le_top
    rw [parts.betweenLast_eq]
    omega
  have hbe : ∀ r ∈ if ⊥ < bounds.lower then [ClosedRange.mk ⊥ parts.below] else [], r.upper < ⊤ := by
    intro r hr
    rw [mem_ite_nil_right, mem_singleton] at hr
    obtain ⟨hbo, rfl⟩ := hr
    refine lt_of_lt_of_le (b := bounds.lower) (lt_iff.mpr ?_) le_top
    rw [parts.below_eq hbo]
    omega
  rw [ranges]
  by_cases ht : other.upper < ⊤
  · rw [if_pos ht, dropLast_concat]
    exact forall_mem_append.mpr ⟨hbe, forall_mem_singleton.mpr hb⟩
  · rw [if_neg ht, append_nil, dropLast_concat]
    exact hbe

end GapParts

theorem mergeNegated_gap {bounds other : ClosedRange Int128} (hga : bounds.upper < other.lower) :
    ∃ parts : GapParts bounds other, ∀ S nullAllowed, NegatedHugeintRange.mergeNegated S bounds other nullAllowed =
        combineHugeintRanges S parts.ranges nullAllowed := by
  obtain ⟨below, hbelow_eq, hbe⟩ := rangeBelow_ok bounds.lower
  obtain ⟨first, last, hf, hl, hb⟩ := rangeBetween_ok hga
  obtain ⟨above, habove_eq, hab⟩ := rangeAbove_ok other.upper
  refine ⟨⟨below, first, last, above, hga, hbelow_eq, hf, hl, habove_eq⟩, fun S nullAllowed => ?_⟩
  rw [NegatedHugeintRange.mergeNegated, if_pos hga, hbe, hb, hab]
  rfl

/-- The bounds of two negated ranges, the first not starting later, that merge exactly:
they overlap, or one range is enough for what they leave. -/
def NegatedHugeintRange.ExactWith (bounds other : ClosedRange Int128) : Prop :=
  other.lower ≤ bounds.upper ∨
    ((bounds.lower = SignedInt.min 128 ∨ bounds.upper < bounds.lower) ∧ bounds.upper < other.upper ∧
      (other.upper = SignedInt.max 128 ∨ other.upper < other.lower))

def HugeintFilter.Exact : RangeFilter Int128 → RangeFilter Int128 → Prop
  | .range _ _, _ => False
  | .negatedRange bounds _, .range other _ =>
    ¬(other.lower < bounds.lower ∧ bounds.lower ≤ bounds.upper ∧ bounds.upper < other.upper)
  | .negatedRange bounds _, .negatedRange other _ =>
    if other.lower < bounds.lower then NegatedHugeintRange.ExactWith other bounds
    else NegatedHugeintRange.ExactWith bounds other

section Negated

variable {f g : RangeFilter Int128} {bounds other : ClosedRange Int128} {nullAllowed : Bool}
  (hac : ∀ v, (f.testValue v = true ∧ g.testValue v = true) ↔
    ¬bounds.contains v = true ∧ ¬other.contains v = true)
include hac

variable (parts : GapParts bounds other) (hn : nullAllowed = (f.nullAllowed && g.nullAllowed)) (hs : bounds.lower ≤ other.lower)
  (hm : ∀ S, mergeWith S f g = combineHugeintRanges S parts.ranges nullAllowed)

include hm in
theorem exactWith_of_mergesExactly (h : MergesExactly mergeWith f g) : NegatedHugeintRange.ExactWith bounds other := by
  have hh : ∀ v, InHull parts.ranges v ↔ ¬bounds.contains v = true ∧ ¬other.contains v = true := by
    intro v
    obtain ⟨merged, hme, hb⟩ := h .insertion
    rw [hm] at hme
    obtain ⟨hu, rfl, hh⟩ :=
      combineRanges_spec (fun _ _ h => le_of_nextHugeint h) parts.ranges_ne_nil parts.gapless hme
    rw [← hh, ← hac]
    exact ((isIntersection_range f g _).mp hb).1 v
  -- If the last part may be sorted before the one between the ranges, the sum overflows.
  have hla : ¬(other.upper < ⊤ ∧ other.upper ≤ bounds.upper) := by
    rintro ⟨ht, hle⟩
    obtain ⟨merged, hme, -⟩ := h .reversedInsertion
    have hsu : [ClosedRange.mk parts.betweenFirst parts.betweenLast, ⟨parts.above, ⊤⟩].Sublist parts.ranges := by
      rw [GapParts.ranges, if_pos ht, ← singleton_append]
      exact (sublist_append_right _ _).append (.refl _)
    rw [hm] at hme
    refine combineHugeintRanges_overflow hsu rfl ?_ _ hme
    have hab := parts.above_eq ht
    have hf := parts.betweenFirst_eq
    simp only [le_iff] at hle ⊢
    omega
  have hmi : SignedInt.min 128 = ⊥ := rfl
  have hma : SignedInt.max 128 = ⊤ := rfl
  have hl := hh bounds.lower
  have hup := hh other.lower
  simp only [parts.inHull_iff, contains_iff] at hl hup
  rw [NegatedHugeintRange.ExactWith, hmi, hma]
  grind

include hn hs hm in
theorem mergesExactly_of_exactWith (h : NegatedHugeintRange.ExactWith bounds other) : MergesExactly mergeWith f g := by
  have hga := parts.gap
  have hmi : SignedInt.min 128 = ⊥ := rfl
  have hma : SignedInt.max 128 = ⊤ := rfl
  obtain ⟨hl, hla, hhi⟩ := h.resolve_left (not_le.mpr hga)
  have hh := fun S => hm S ▸ combineHugeintRanges_ok S parts.ranges_ne_nil (parts.pairwise_ranges hla)
    parts.gapless parts.upper_lt_top nullAllowed
  refine (mergesExactly_hull hn hh).mpr fun v => ?_
  rw [hac, parts.inHull_iff]
  simp only [contains_iff]
  have hen : ⊥ ≤ v ∧ v ≤ ⊤ ∧ ⊥ ≤ bounds.lower ∧ other.upper ≤ ⊤ ∧ ⊥ ≤ bounds.upper :=
    ⟨bot_le, le_top, bot_le, le_top, bot_le⟩
  grind

include hn hs in
theorem mergesExactly_mergeNegatedHugeint
    (hm : ∀ S, mergeWith S f g = NegatedHugeintRange.mergeNegated S bounds other nullAllowed) :
    MergesExactly mergeWith f g ↔ NegatedHugeintRange.ExactWith bounds other := by
  by_cases hga : bounds.upper < other.lower
  · obtain ⟨parts, hp⟩ := mergeNegated_gap hga
    have hc := fun S => (hm S).trans (hp S nullAllowed)
    exact ⟨exactWith_of_mergesExactly hac parts hc,
      mergesExactly_of_exactWith hac parts hn hs hc⟩
  · have ho := not_lt.mp hga
    simp only [NegatedHugeintRange.mergeNegated, if_neg hga] at hm
    exact iff_of_true (mergesExactly_overlap hn hs ho hac hm)
      (.inl ho)

end Negated

theorem mergesExactly_hugeint_iff (f g : RangeFilter Int128) : MergesExactly mergeWith f g ↔ Exact f g := by
  cases f with
  | range bounds nullAllowed =>
    refine iff_of_false (fun h => ?_) id
    obtain ⟨merged, hme, -⟩ := h .insertion
    cases hme
  | negatedRange bounds nullAllowed =>
    cases g with
    | range other otherNull => exact mergesExactly_hugeintRange ..
    | negatedRange other otherNull =>
      rw [Exact]
      split
      case isTrue hlt =>
        refine mergesExactly_mergeNegatedHugeint (fun v => ?_) (Bool.and_comm ..) hlt.le fun S => if_pos hlt
        simp only [testValue, Bool.not_eq_true', Bool.not_eq_true]
        exact and_comm
      case isFalse hle =>
        refine mergesExactly_mergeNegatedHugeint (fun v => ?_) rfl (not_lt.mp hle) fun S => if_neg hle
        simp only [testValue, Bool.not_eq_true', Bool.not_eq_true]

end Hugeints

/-- Which timestamp and hugeint filters merge to their intersection. -/
theorem mergeWith_exact_iff (f g : RangeFilter Timestamp) (h k : RangeFilter Int128) :
    (MergesExactly TimestampFilter.mergeWith f g ↔ TimestampFilter.Exact f g) ∧
      (MergesExactly mergeWith h k ↔ Exact h k) :=
  ⟨mergesExactly_timestamp_iff f g, mergesExactly_hugeint_iff h k⟩

/-- The filter that rejects one value, as the translation of `neq` builds it. -/
def notEqual {α : Type} (v : α) : RangeFilter α := .negatedRange ⟨v, v⟩ false

def ten : Int128 := ⟨10, by decide, by decide⟩

def twenty : Int128 := ⟨20, by decide, by decide⟩

def fiveSeconds : Timestamp := ⟨5, 0, by decide, by decide, Timestamp.min.nanos_le⟩

def zeroToNineSeconds : ClosedRange Timestamp :=
  ⟨⟨0, 0, by decide, by decide, Timestamp.min.nanos_le⟩, ⟨9, 0, by decide, by decide, Timestamp.min.nanos_le⟩⟩

/-- `<> 10` and `<> 20` merge to a range that accepts 10, and `<> 5 s` merged with a
range around it accepts the timestamp at 5 s. -/
theorem mergeWith_accepts_rejected :
    (∃ merged, mergeWith .insertion (notEqual ten) (notEqual twenty) = .ok merged ∧ merged.Accepts ten ∧
      ¬(.ofValue (notEqual ten) : HugeintFilter).Accepts ten) ∧
    ∃ merged, TimestampFilter.mergeWith .insertion (notEqual fiveSeconds) (.range zeroToNineSeconds false) = .ok merged ∧
      merged.Accepts fiveSeconds ∧ ¬(.ofValue (notEqual fiveSeconds) : TimestampFilter).Accepts fiveSeconds := by
  constructor
  · exact ⟨.ofValue (.range ⟨SignedInt.min 128, SignedInt.max 128⟩ false), by decide, by decide, by decide⟩
  · exact ⟨.ofValue (.range zeroToNineSeconds false), by decide, by decide, by decide⟩

end Bolt.Filters
