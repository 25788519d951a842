import Bolt.Filters.RangeTestsSound

/-!
# Filters made from IN lists

`createBigintValues` and `createNegatedBigintValues` take any list. They choose a filter by
the length of the list and the distance of its ends, so a list with repeated values can
pass for a range that it does not fill. A hash table keeps the repetitions, and the range
test of its negation counts them.
-/

namespace Bolt.Filters

open Lib.SignedInts Lib.Intervals

variable {values : List Int64} {min max v : Int64} {nullAllowed negated : Bool}

/-- `BigintValuesUsingHashTable`: "min must be less than max", "values must contain at least 2 entries". -/
def HashTable.create (min max : Int64) (values : List Int64) : Except FilterError HashTable :=
  if h : min < max ∧ 2 ≤ values.length then
    .ok
      { min, max, values := values.insertionSort (· ≤ ·)
        ascending := List.pairwise_insertionSort (· ≤ ·) values
        two_le := by rw [List.length_insertionSort]; exact h.2
        min_lt_max := h.1 }
  else
    .error .checkFailed

/-- `BigintValuesUsingBitmask`, whose loop over the mask counts with an `int`. -/
def Bitmask.create (min max : Int64) (values : List Int64) : Except FilterError Bitmask :=
  if h : (min < max ∧ 2 ≤ values.length) ∧ ∀ v ∈ values, min ≤ v ∧ v ≤ max then
    if max.val - min.val + 1 < 2 ^ 31 then .ok { min, max, values, min_lt_max := h.1.1, within := h.2 }
    else .error .signedOverflow
  else
    .error .checkFailed

/-- The loop that finds the least and the greatest value. -/
def extremes (first : Int64) (values : List Int64) : Int64 × Int64 :=
  values.foldl
    (fun (min, max) v => if max < v then (min, v) else if v < min then (v, max) else (min, max)) (first, first)

/-- The end of `createBigintValuesFilter`, with the least and the greatest value. -/
def createFilterBetween (min max : Int64) (values : List Int64) (nullAllowed negated : Bool) :
    Except FilterError (Filter BigintFilter) :=
  let range := max.val - min.val
  -- all accepted/rejected values form one contiguous block
  if SubFits max min ∧ range + 1 = values.length then
    .ok (.ofValue (if negated then .negatedRange ⟨min, max⟩ nullAllowed else .range ⟨⟨min, max⟩, nullAllowed⟩))
  else if SubFits max min ∧ (range < 32 * 64 ∨ range < values.length * 4 * 64) then do
    let mask ← Bitmask.create min max values
    return .ofValue (if negated then .negatedBitmask mask nullAllowed else .bitmask mask nullAllowed)
  else do
    let table ← HashTable.create min max values
    return .ofValue (if negated then .negatedHashTable table nullAllowed else .hashTable table nullAllowed)

def createBigintValuesFilter (values : List Int64) (nullAllowed negated : Bool) :
    Except FilterError (Filter BigintFilter) :=
  match values with
  | [] => .ok (if negated then notNullOrTrue nullAllowed else nullOrFalse nullAllowed)
  | [v] => .ok (.ofValue (if negated then .negatedRange ⟨v, v⟩ nullAllowed else .range ⟨⟨v, v⟩, nullAllowed⟩))
  | first :: rest =>
    -- the loop over the list counts with an `int`
    if 2 ^ 31 ≤ values.length then .error .signedOverflow
    else
      let (min, max) := extremes first rest
      createFilterBetween min max values nullAllowed negated

def createBigintValues (values : List Int64) (nullAllowed : Bool) : Except FilterError (Filter BigintFilter) :=
  createBigintValuesFilter values nullAllowed false

def createNegatedBigintValues (values : List Int64) (nullAllowed : Bool) : Except FilterError (Filter BigintFilter) :=
  createBigintValuesFilter values nullAllowed true

/-- `testInt64Range` of all filters. -/
def Filter.testInt64Range (filter : Filter BigintFilter) (min max : Int64) (hasNull : Bool) : Except FilterError Bool :=
  match filter with
  | .ofValue filter => filter.testInt64Range min max hasNull
  | .isNull => .ok hasNull
  | .alwaysFalse => .ok false
  | .isNotNull => .ok true
  | .alwaysTrue => .ok true

/-! ## The lists that keep their set -/

/-- The range test is false only for intervals that are rejected as a whole. -/
def SkipsRejected (filter : Filter BigintFilter) : Prop :=
  ∀ min max hasNull, filter.testInt64Range min max hasNull = .ok false → ∀ v, min ≤ v → v ≤ max → ¬filter.Accepts v

/-- A filter is made that accepts the values of the set and no others. -/
def KeepsSet (created : Except FilterError (Filter BigintFilter)) (set : Int64 → Prop) : Prop :=
  ∃ filter, created = .ok filter ∧ (∀ v, filter.Accepts v ↔ set v) ∧ SkipsRejected filter

/-- From one listed value to another there are as many entries as integers only where every
integer is listed. -/
def CountsExactly (values : List Int64) : Prop :=
  ∀ a ∈ values, ∀ b ∈ values, (entriesBetween values a b : ℤ) = b.val - a.val → ∀ v, a ≤ v → v ≤ b → v ∈ values

/-- The lists that keep their set. Two values or more, which are fewer than 2^31, are not all
the same. With as many entries as integers between their ends they are distinct. With ends so
close that a mask is made, the mask has less than 2^31 bits. Else the entries are counted
exactly. -/
def Keepable (values : List Int64) : Prop :=
  2 ≤ values.length → values.length < 2 ^ 31 ∧ ∀ least ∈ values, ∀ greatest ∈ values,
    (∀ v ∈ values, least ≤ v ∧ v ≤ greatest) → least < greatest ∧
      let range := greatest.val - least.val
      if range + 1 = values.length then values.Nodup
      else if range < 32 * 64 ∨ range < values.length * 4 * 64 then range + 1 < 2 ^ 31
      else CountsExactly values

/-! ## Each class of filters -/

theorem skipsRejected_ofValue {filter : BigintFilter}
    (hclass : ∀ table nullAllowed, filter ≠ .negatedHashTable table nullAllowed)
    (hclass' : ∀ ranges nullAllowed, filter ≠ .multiRange ranges nullAllowed) : SkipsRejected (.ofValue filter) := by
  intro min max hasNull hfalse v hmin hmax haccepts
  have htrue := testInt64Range_true hmin hmax (accepts_ofValue_iff.mp haccepts) hclass hclass' hasNull
  cases htrue.symm.trans hfalse

/-- The set of a range, or of its negation, is that of the list where the list fills it. -/
theorem keepsSet_range_iff (nullAllowed negated : Bool) :
    KeepsSet (.ok (.ofValue (if negated then .negatedRange ⟨min, max⟩ nullAllowed else .range ⟨⟨min, max⟩, nullAllowed⟩)))
      (fun v => if negated then v ∉ values else v ∈ values) ↔ ∀ v, v ∈ values ↔ min ≤ v ∧ v ≤ max := by
  have haccepts : ∀ v, (Filter.ofValue (if negated then BigintFilter.negatedRange ⟨min, max⟩ nullAllowed
      else .range ⟨⟨min, max⟩, nullAllowed⟩)).Accepts v ↔ if negated then ¬(min ≤ v ∧ v ≤ max) else min ≤ v ∧ v ≤ max := by
    intro v
    rw [accepts_ofValue_iff, ← ClosedRange.contains_iff (r := ⟨min, max⟩)]
    cases negated with
    | false => exact .rfl
    | true => exact (Bool.not_eq_true' _).to_iff.trans (Bool.not_eq_true _).to_iff.symm
  constructor
  · rintro ⟨filter, hok, hkeeps, -⟩ v
    cases hok
    have hv := (hkeeps v).symm.trans (haccepts v)
    cases negated with
    | false => exact hv
    | true => exact not_iff_not.mp hv
  · refine fun hset => ⟨_, rfl, fun v => (haccepts v).trans ?_, ?_⟩
    · simp [hset v]
    · cases negated <;> exact skipsRejected_ofValue (by simp) (by simp)

theorem keepsSet_bitmask (mask : Bitmask) (nullAllowed negated : Bool) :
    KeepsSet (.ok (.ofValue (if negated then .negatedBitmask mask nullAllowed else .bitmask mask nullAllowed)))
      fun v => if negated then v ∉ mask.values else v ∈ mask.values := by
  refine ⟨_, rfl, fun v => ?_, ?_⟩
  · rw [accepts_ofValue_iff]
    dsimp only
    rw [← Bitmask.testInt64_iff]
    cases negated with
    | false => exact .rfl
    | true => exact (Bool.not_eq_true' _).to_iff.trans (Bool.not_eq_true _).to_iff.symm
  · cases negated <;> exact skipsRejected_ofValue (by simp) (by simp)

section

variable {table : HashTable} (hmem : ∀ v, v ∈ table.values ↔ v ∈ values)
  (hwithin : ∀ v ∈ values, table.min ≤ v ∧ v ≤ table.max)
include hmem hwithin

theorem HashTable.testInt64_iff_mem (v : Int64) : table.testInt64 v = true ↔ v ∈ values := by
  rw [HashTable.testInt64_iff, hmem]
  exact ⟨And.right, fun h => ⟨hwithin v h, h⟩⟩

theorem keepsSet_hashTable (nullAllowed : Bool) :
    KeepsSet (.ok (.ofValue (.hashTable table nullAllowed))) fun v => v ∈ values :=
  ⟨_, rfl, fun v => accepts_ofValue_iff.trans (HashTable.testInt64_iff_mem hmem hwithin v),
    skipsRejected_ofValue (by simp) (by simp)⟩

/-- A negated hash table skips the intervals between listed values that it counts as many
entries in as integers. -/
theorem keepsSet_negatedHashTable_iff (hlength : values.length < 2 ^ 31)
    (hcount : ∀ a b, entriesBetween table.values a b = entriesBetween values a b) (nullAllowed : Bool) :
    KeepsSet (.ok (.ofValue (.negatedHashTable table nullAllowed))) (fun v => v ∉ values) ↔ CountsExactly values := by
  have haccepts : ∀ v, (Filter.ofValue (BigintFilter.negatedHashTable table nullAllowed)).Accepts v ↔ v ∉ values := by
    intro v
    rw [accepts_ofValue_iff, ← HashTable.testInt64_iff_mem hmem hwithin, BigintFilter.testInt64, Bool.not_eq_true',
      Bool.not_eq_true]
  have hfits : ∀ {a b}, a < b → (entriesBetween values a b : ℤ) = b.val - a.val → SubFits b a := by
    intro a b hlt heq
    have hle : entriesBetween values a b ≤ values.length := List.countP_le_length
    have := SignedInt.lt_iff.mp hlt
    rw [SubFits]
    omega
  constructor
  · rintro ⟨filter, hok, -, hskips⟩ a ha b hb heq v hav hvb
    cases hok
    rcases (hav.trans hvb).eq_or_lt with rfl | hlt
    · exact le_antisymm hvb hav ▸ ha
    · have hfalse : NegatedHashTable.testInt64Range table a b = .ok false :=
        (NegatedHashTable.testInt64Range_eq_false_iff hlt).mpr
          ⟨⟨(hwithin a ha).1, (hwithin b hb).2⟩, ⟨(hmem a).mpr ha, (hmem b).mpr hb⟩, hfits hlt heq, by rw [hcount, heq]⟩
      have hrejected := hskips a b false hfalse v hav hvb
      rwa [haccepts, not_not] at hrejected
  · refine fun hexact => ⟨_, rfl, haccepts, fun min max hasNull hfalse v hmin hmax => ?_⟩
    rw [haccepts, not_not]
    change BigintFilter.testInt64Range _ min max hasNull = .ok false at hfalse
    unfold BigintFilter.testInt64Range at hfalse
    split at hfalse
    · cases hfalse
    dsimp only at hfalse
    rcases (hmin.trans hmax).eq_or_lt with rfl | hlt
    · rw [NegatedHashTable.testInt64Range, if_pos rfl, Except.ok.injEq, Bool.not_eq_false',
        HashTable.testInt64_iff_mem hmem hwithin] at hfalse
      exact le_antisymm hmax hmin ▸ hfalse
    · obtain ⟨-, ⟨hminMem, hmaxMem⟩, -, heq⟩ := (NegatedHashTable.testInt64Range_eq_false_iff hlt).mp hfalse
      exact hexact min ((hmem min).mp hminMem) max ((hmem max).mp hmaxMem) (by rw [← hcount, heq]) v hmin hmax

end

/-! ## Creating the filter -/

/-- The running least and greatest value, and where they come from. -/
theorem foldl_extremes (values : List Int64) : ∀ least top : Int64, least ≤ top →
    ∃ least' top', values.foldl
        (fun (min, max) v => if max < v then (min, v) else if v < min then (v, max) else (min, max)) (least, top) =
          (least', top') ∧
      least' ≤ least ∧ top ≤ top' ∧ (∀ v ∈ values, least' ≤ v ∧ v ≤ top') ∧
      (least' = least ∨ least' ∈ values) ∧ (top' = top ∨ top' ∈ values) := by
  induction values with
  | nil =>
    intro least top _
    exact ⟨least, top, rfl, le_refl _, le_refl _, fun _ h => absurd h List.not_mem_nil, .inl rfl, .inl rfl⟩
  | cons w values ih =>
    intro least top hle
    rw [List.foldl_cons]
    dsimp only
    split
    · rename_i hlt
      obtain ⟨least', top', hf, hlea, hgreatest, ha, hl, hg⟩ := ih least w (hle.trans hlt.le)
      refine ⟨least', top', hf, hlea, hlt.le.trans hgreatest, ?_, ?_, ?_⟩
      · exact List.forall_mem_cons.mpr ⟨⟨hlea.trans (hle.trans hlt.le), hgreatest⟩, ha⟩
      · exact hl.imp id (List.mem_cons_of_mem _)
      · exact .inr (hg.elim (fun h => h ▸ List.mem_cons_self) (List.mem_cons_of_mem _))
    split
    · rename_i hge hlt
      obtain ⟨least', top', hf, hlea, hgreatest, ha, hl, hg⟩ := ih w top (not_lt.mp hge)
      refine ⟨least', top', hf, hlea.trans hlt.le, hgreatest, ?_, ?_, ?_⟩
      · exact List.forall_mem_cons.mpr ⟨⟨hlea, (not_lt.mp hge).trans hgreatest⟩, ha⟩
      · exact .inr (hl.elim (fun h => h ▸ List.mem_cons_self) (List.mem_cons_of_mem _))
      · exact hg.imp id (List.mem_cons_of_mem _)
    · rename_i hm hmi
      obtain ⟨least', top', hf, hlea, hgreatest, ha, hl, hg⟩ := ih least top hle
      refine ⟨least', top', hf, hlea, hgreatest, ?_, ?_, ?_⟩
      · exact List.forall_mem_cons.mpr ⟨⟨hlea.trans (not_lt.mp hmi), (not_lt.mp hm).trans hgreatest⟩, ha⟩
      · exact hl.imp id (List.mem_cons_of_mem _)
      · exact hg.imp id (List.mem_cons_of_mem _)

theorem extremes_spec (first : Int64) (values : List Int64) : ∃ least greatest, extremes first values = (least, greatest) ∧
    least ∈ first :: values ∧ greatest ∈ first :: values ∧ ∀ v ∈ first :: values, least ≤ v ∧ v ≤ greatest := by
  obtain ⟨least, greatest, hf, hlea, hgreatest, ha, hl, hg⟩ := foldl_extremes values first first (le_refl _)
  refine ⟨least, greatest, hf, ?_, ?_, List.forall_mem_cons.mpr ⟨⟨hlea, hgreatest⟩, ha⟩⟩
  · exact hl.elim (fun h => h ▸ List.mem_cons_self) (List.mem_cons_of_mem _)
  · exact hg.elim (fun h => h ▸ List.mem_cons_self) (List.mem_cons_of_mem _)

/-- As many entries as integers in a range around them: the entries are distinct where they
fill the range, and the other way round. -/
theorem nodup_iff_fills (hb : ∀ v ∈ values, min ≤ v ∧ v ≤ max) (hcount : max.val - min.val + 1 = values.length) :
    values.Nodup ↔ ∀ v, v ∈ values ↔ min ≤ v ∧ v ≤ max := by
  have hinj : Function.Injective (SignedInt.val : Int64 → ℤ) := SignedInt.val_injective
  have hsub : (values.map SignedInt.val).toFinset ⊆ Finset.Icc min.val max.val := by
    intro x hx
    obtain ⟨w, hw, rfl⟩ := List.mem_map.mp (List.mem_toFinset.mp hx)
    exact Finset.mem_Icc.mpr (hb w hw)
  have hcard : ((Finset.Icc min.val max.val).card : ℤ) = values.length := by
    rw [Int.card_Icc]
    omega
  constructor
  · intro hnodup v
    refine ⟨hb v, fun hv => ?_⟩
    have heq := Finset.eq_of_subset_of_card_le hsub (by
      rw [List.toFinset_card_of_nodup (hnodup.map hinj), List.length_map]
      omega)
    have hm : v.val ∈ (values.map SignedInt.val).toFinset := heq ▸ Finset.mem_Icc.mpr hv
    obtain ⟨w, hw, hva⟩ := List.mem_map.mp (List.mem_toFinset.mp hm)
    exact hinj hva ▸ hw
  · intro hfills
    have hsup : Finset.Icc min.val max.val ⊆ (values.map SignedInt.val).toFinset := by
      intro x hx
      rw [Finset.mem_Icc] at hx
      obtain ⟨v, rfl⟩ := SignedInt.exists_val_eq hx.1 hx.2
      exact List.mem_toFinset.mpr (List.mem_map_of_mem ((hfills v).mpr hx))
    have hle := Finset.card_le_card hsup
    have hge := (values.map SignedInt.val).toFinset_card_le
    rw [List.length_map] at hge
    refine List.Nodup.of_map SignedInt.val (Multiset.coe_nodup.mp (Multiset.toFinset_card_eq_card_iff_nodup.mp ?_))
    rw [Multiset.coe_card, List.length_map]
    show (values.map SignedInt.val).toFinset.card = _
    omega

section Several

variable (htwo : 2 ≤ values.length) (hmin : min ∈ values) (hmax : max ∈ values) (hb : ∀ v ∈ values, min ≤ v ∧ v ≤ max)
include htwo hmin hmax hb

theorem createBigintValuesFilter_eq (hlength : values.length < 2 ^ 31) (nullAllowed negated : Bool) :
    createBigintValuesFilter values nullAllowed negated = createFilterBetween min max values nullAllowed negated := by
  match values, htwo with
  | first :: second :: rest, _ =>
    obtain ⟨least, greatest, hextremes, hl, hg, hspec⟩ := extremes_spec first (second :: rest)
    have hle : least = min := le_antisymm (hspec min hmin).1 (hb least hl).1
    have hge : greatest = max := le_antisymm (hb greatest hg).2 (hspec max hmax).2
    subst hle hge
    rw [createBigintValuesFilter]
    · rw [if_neg (not_le.mpr hlength), hextremes]
    · simp

/-- A list of two values or more keeps its set where the chosen filter does. -/
theorem keepsSet_several_iff (nullAllowed negated : Bool) :
    KeepsSet (createBigintValuesFilter values nullAllowed negated)
        (fun v => if negated then v ∉ values else v ∈ values) ↔
      values.length < 2 ^ 31 ∧ min < max ∧
        if max.val - min.val + 1 = values.length then values.Nodup
        else if max.val - min.val < 32 * 64 ∨ max.val - min.val < values.length * 4 * 64 then
          max.val - min.val + 1 < 2 ^ 31
        else negated = true → CountsExactly values := by
  by_cases hlength : values.length < 2 ^ 31
  swap
  · refine iff_of_false ?_ fun h => hlength h.1
    rintro ⟨filter, hok, -⟩
    match values, htwo with
    | first :: second :: rest, _ =>
      rw [createBigintValuesFilter, if_pos (not_lt.mp hlength)] at hok
      · cases hok
      · simp
  rw [and_iff_right hlength, createBigintValuesFilter_eq htwo hmin hmax hb hlength, createFilterBetween]
  have hle := SignedInt.le_iff.mp (hb min hmin).2
  have hlt_iff : min < max ↔ min.val < max.val := SignedInt.lt_iff
  by_cases hcontiguous : max.val - min.val + 1 = values.length
  · have hlt : min < max := hlt_iff.mpr (by omega)
    have hfits : SubFits max min := by
      rw [SubFits]
      omega
    rw [if_pos ⟨hfits, hcontiguous⟩, if_pos hcontiguous, and_iff_right hlt, keepsSet_range_iff,
      nodup_iff_fills hb hcontiguous]
  rw [if_neg fun h => hcontiguous h.2, if_neg hcontiguous]
  by_cases hmask : max.val - min.val < 32 * 64 ∨ max.val - min.val < values.length * 4 * 64
  · have hfits : SubFits max min := by
      rw [SubFits]
      omega
    rw [if_pos ⟨hfits, hmask⟩, if_pos hmask, Bitmask.create]
    by_cases hlt : min < max
    · rw [dif_pos ⟨⟨hlt, htwo⟩, hb⟩]
      split
      · next hbits => exact iff_of_true (keepsSet_bitmask ⟨min, max, values, hlt, hb⟩ nullAllowed negated) ⟨hlt, hbits⟩
      · next hbits => exact iff_of_false (fun ⟨_, hok, _⟩ => by cases hok) fun h => hbits h.2
    · rw [dif_neg fun h => hlt h.1.1]
      exact iff_of_false (fun ⟨_, hok, _⟩ => by cases hok) fun h => hlt h.1
  · rw [if_neg fun h => hmask h.2, if_neg hmask, HashTable.create]
    have hlt : min < max := hlt_iff.mpr (by omega)
    have hperm := List.perm_insertionSort (· ≤ ·) values
    have hcount : ∀ a b, entriesBetween (values.insertionSort (· ≤ ·)) a b = entriesBetween values a b :=
      fun a b => hperm.countP_eq _
    rw [dif_pos ⟨hlt, htwo⟩, and_iff_right hlt]
    cases negated with
    | false => exact iff_of_true (keepsSet_hashTable (fun v => hperm.mem_iff) hb nullAllowed) nofun
    | true =>
      rw [imp_iff_right rfl]
      exact keepsSet_negatedHashTable_iff (fun v => hperm.mem_iff) hb hlength hcount nullAllowed

end Several

theorem keepsSet_nil (nullAllowed negated : Bool) :
    KeepsSet (createBigintValuesFilter [] nullAllowed negated) fun v => if negated then v ∉ [] else v ∈ ([] : List Int64) := by
  refine ⟨_, rfl, fun v => ?_, fun min max hasNull hfalse v _ _ haccepts => ?_⟩
  · cases negated with
    | false => exact iff_of_false (Filter.accepts_nullOrFalse nullAllowed v) List.not_mem_nil
    | true => cases nullAllowed <;> exact iff_of_true rfl List.not_mem_nil
  · cases negated with
    | false => exact Filter.accepts_nullOrFalse nullAllowed v haccepts
    | true => cases nullAllowed <;> cases hfalse

theorem keepsSet_singleton (w : Int64) (nullAllowed negated : Bool) :
    KeepsSet (createBigintValuesFilter [w] nullAllowed negated) fun v => if negated then v ∉ [w] else v ∈ [w] := by
  refine (@keepsSet_range_iff [w] w w nullAllowed negated).mpr fun v => ?_
  rw [List.mem_singleton, eq_comm, le_antisymm_iff]

/-- Both filters keep the set of the list for the lists that are keepable, and for no others. -/
theorem inList_keepsSet_iff (values : List Int64) (nullAllowed : Bool) :
    KeepsSet (createBigintValues values nullAllowed) (· ∈ values) ∧
      KeepsSet (createNegatedBigintValues values nullAllowed) (· ∉ values) ↔ Keepable values := by
  match values with
  | [] => exact iff_of_true ⟨keepsSet_nil _ false, keepsSet_nil _ true⟩ (by simp [Keepable])
  | [w] => exact iff_of_true ⟨keepsSet_singleton w _ false, keepsSet_singleton w _ true⟩ (by simp [Keepable])
  | first :: second :: rest =>
    obtain ⟨least, greatest, -, hl, hg, hb⟩ := extremes_spec first (second :: rest)
    have hiff := keepsSet_several_iff (by simp) hl hg hb nullAllowed
    have hin := hiff false
    have hnot := hiff true
    simp only [Bool.false_eq_true, ↓reduceIte, false_imp_iff, true_imp_iff] at hin hnot
    rw [createBigintValues, createNegatedBigintValues, hin, hnot, Keepable, imp_iff_right (by simp)]
    constructor
    · rintro ⟨-, hlength, hlt, hset⟩
      refine ⟨hlength, fun least' hl' greatest' hg' hb' => ?_⟩
      -- the least and the greatest value are unique
      obtain rfl : least' = least := le_antisymm (hb' _ hl).1 (hb _ hl').1
      obtain rfl : greatest' = greatest := le_antisymm (hb _ hg').2 (hb' _ hg).2
      exact ⟨hlt, hset⟩
    · rintro ⟨hlength, hall⟩
      obtain ⟨hlt, hset⟩ := hall least hl greatest hg hb
      refine ⟨⟨hlength, hlt, ?_⟩, hlength, hlt, hset⟩
      dsimp only at hset
      split_ifs at hset ⊢ <;> exact hset

def one : Int64 := ⟨1, by decide, by decide⟩

def three : Int64 := ⟨3, by decide, by decide⟩

def five : Int64 := ⟨5, by decide, by decide⟩

/-- A repeated value does no harm where a mask is made. -/
theorem inList_keepsSet_oneOneFive : KeepsSet (createBigintValues [one, one, five] false) (· ∈ [one, one, five]) :=
  ((inList_keepsSet_iff [one, one, five] false).mpr fun _ => ⟨by decide, fun least hl greatest hg hb => by
    obtain rfl : least = one := le_antisymm (hb one (by decide)).1 ((by decide : ∀ v ∈ [one, one, five], one ≤ v) least hl)
    obtain rfl : greatest = five :=
      le_antisymm ((by decide : ∀ v ∈ [one, one, five], v ≤ five) greatest hg) (hb five (by decide)).2
    refine ⟨by decide, ?_⟩
    dsimp only
    rw [if_neg (by decide), if_pos (by decide)]
    decide⟩).1

/-- Three values from 1 to 3 pass for the range, so 2 is accepted. -/
theorem not_keepsSet_oneOneThree : ¬KeepsSet (createBigintValues [one, one, three] false) (· ∈ [one, one, three]) := by
  rintro ⟨filter, hok, haccepts, -⟩
  have htwo := haccepts ⟨2, by decide, by decide⟩
  cases hok
  revert htwo
  decide

end Bolt.Filters
