import Bolt.Exec.TreeOfLosersRuns

/-!
# Merges by TreeOfLosers and MergeArray

`MergeArray` keeps its streams sorted on their heads. Once it has returned nothing it reads
the first element of an empty vector on the next call. `streamsMerge_iff` says for which numbers of
streams `next` and `nextWithEquals` merge, and for which numbers of calls `MergeArray` does.
-/

namespace Bolt.Exec

open Lib Lib.Sorting Lib.Merging List
open Std (TransCmp OrientedCmp)

variable {α : Type} {cmp : α → α → Ordering}

namespace MergeArray

variable {streams : List (List α)} {array : MergeArray α}

/-! ## The streams in order -/

def HeadsSorted (cmp : α → α → Ordering) (streams : List (List α)) : Prop :=
  (∀ stream ∈ streams, stream ≠ []) ∧ streams.Pairwise fun left right => streamLess cmp right left = false

/-- The array between two calls: behind the first stream, which has been popped, the streams
are in order. -/
structure Ready (cmp : α → α → Ordering) (array : MergeArray α) : Prop where
  sorted : ∀ stream ∈ array.streams, Sorted (fun a b => (cmp a b).isLT) stream
  start : array.isFirst = true → HeadsSorted cmp array.streams
  standing : array.isFirst = false → ∃ first rest, array.streams = first :: rest ∧ HeadsSorted cmp rest

theorem HeadsSorted.least [TransCmp cmp] {a : α} {tail : List α} (h : HeadsSorted cmp ((a :: tail) :: streams))
    (hs : ∀ stream ∈ (a :: tail) :: streams, Sorted (fun a b => (cmp a b).isLT) stream) :
    ∀ b ∈ ((a :: tail) :: streams).flatten, (cmp b a).isLT = false := by
  intro b hb
  obtain ⟨stream, hst, hb⟩ := mem_flatten.mp hb
  refine @head_least _ (fun a b => (cmp a b).isLT) (strictWeak_isLT cmp) _ hs a (fun other ho c hc => ?_) _
    hst _ hb
  obtain ⟨rest, rfl⟩ := head?_eq_some_iff.mp hc
  rcases mem_cons.mp ho with heq | hm
  · injection heq with hca _
    subst hca
    exact (strictWeak_isLT cmp).irrefl _
  · exact (pairwise_cons.mp h.2).1 _ hm

theorem streamLess_negTrans [TransCmp cmp] {left middle right : List α} (hm : middle ≠ [])
    (hml : streamLess cmp middle left = false) (hr : streamLess cmp right middle = false) : streamLess cmp right left = false := by
  cases left with
  | nil => cases right <;> rfl
  | cons a _ =>
    cases right with
    | nil => rfl
    | cons c _ =>
      cases middle with
      | nil => exact absurd rfl hm
      | cons b _ => exact (strictWeak_isLT cmp).negTrans hml hr

theorem streamLess_asymm [TransCmp cmp] {left right : List α} (h : streamLess cmp left right = true) :
    streamLess cmp right left = false := by
  cases left with
  | nil => cases h
  | cons a _ =>
    cases right with
    | nil => rfl
    | cons b _ => exact (strictWeak_isLT cmp).asymm h

/-- Moving the first stream behind those that are less keeps the order. -/
theorem HeadsSorted.insert [TransCmp cmp] {first : List α} (hf : first ≠ []) {rest : List (List α)}
    (h : HeadsSorted cmp rest) :
    HeadsSorted cmp (rest.takeWhile (streamLess cmp · first) ++ first :: rest.dropWhile (streamLess cmp · first)) := by
  induction rest with
  | nil =>
    refine ⟨fun stream hs => ?_, pairwise_singleton _ first⟩
    rw [mem_singleton.mp hs]
    exact hf
  | cons snd rest ih =>
    obtain ⟨hd, ho⟩ := h
    obtain ⟨hb, ht⟩ := pairwise_cons.mp ho
    by_cases hl : streamLess cmp snd first = true
    · simp only [takeWhile_cons, dropWhile_cons, hl, if_true, cons_append]
      obtain ⟨hda', ho'⟩ := ih ⟨fun stream hs => hd stream (mem_cons_of_mem _ hs), ht⟩
      have hm : ∀ stream ∈ rest.takeWhile (streamLess cmp · first) ++ first :: rest.dropWhile (streamLess cmp · first),
          stream = first ∨ stream ∈ rest := by
        intro stream hs
        have hp := perm_middle.mem_iff.mp hs
        rw [takeWhile_append_dropWhile] at hp
        exact mem_cons.mp hp
      refine ⟨fun stream hs => ?_, pairwise_cons.mpr ⟨fun stream hs => ?_, ho'⟩⟩
      · rcases mem_cons.mp hs with rfl | hs
        · exact hd stream (mem_cons_self ..)
        · exact hda' stream hs
      · rcases hm stream hs with rfl | hr
        · exact streamLess_asymm hl
        · exact hb stream hr
    · have hl : streamLess cmp snd first = false := by simpa using hl
      simp only [takeWhile_cons, dropWhile_cons, hl, Bool.false_eq_true, if_false, nil_append]
      refine ⟨fun stream hs => ?_, pairwise_cons.mpr ⟨fun stream hs => ?_, ho⟩⟩
      · rcases mem_cons.mp hs with rfl | hs
        · exact hf
        · exact hd stream hs
      · rcases mem_cons.mp hs with rfl | hs
        · exact hl
        · exact streamLess_negTrans (hd snd (mem_cons_self ..)) hl (hb stream hs)

theorem pick_of_next [TransCmp cmp] (hs : ∀ stream ∈ streams, Sorted (fun a b => (cmp a b).isLT) stream)
    (ho : HeadsSorted cmp streams) (hne : streams ≠ [])
    (hn : array.next cmp = some (true, { isFirst := false, streams := streams })) :
    ∃ a array', pull cmp array = some (some a, array') ∧ Ready cmp array' ∧
      (a :: array'.streams.flatten).Perm streams.flatten ∧ ∀ b ∈ streams.flatten, (cmp b a).isLT = false := by
  match streams, hne, hs, ho, hn with
  | [] :: streams, _, _, ho, _ => exact absurd rfl (ho.1 [] (mem_cons_self ..))
  | (a :: tail) :: streams, _, hs, ho, hn =>
    refine ⟨a, { isFirst := false, streams := tail :: streams }, ?_, ⟨fun stream hst => ?_, (fun h => by cases h), fun _ => ?_⟩,
      .refl _, ho.least hs⟩
    · rw [pull, hn]
    · rcases mem_cons.mp hst with rfl | hst
      · exact (pairwise_cons.mp (hs _ (mem_cons_self ..))).2
      · exact hs stream (mem_cons_of_mem _ hst)
    · exact ⟨tail, streams, rfl, fun stream hst => ho.1 stream (mem_cons_of_mem _ hst),
        (pairwise_cons.mp ho.2).2⟩

/-- What the array still has, where its first stream may be at its end. -/
theorem next_cases [TransCmp cmp] (hr : Ready cmp array) :
    ∃ streams, array.next cmp = some (!streams.isEmpty, { isFirst := false, streams := streams }) ∧
      (∀ stream ∈ streams, Sorted (fun a b => (cmp a b).isLT) stream) ∧ HeadsSorted cmp streams ∧
      streams.flatten.Perm array.streams.flatten := by
  obtain ⟨isFirst, streams⟩ := array
  cases isFirst with
  | true => exact ⟨streams, rfl, hr.sorted, hr.start rfl, .refl _⟩
  | false =>
    obtain ⟨first, rest, rfl, ho⟩ := hr.standing rfl
    have hso := hr.sorted
    cases first with
    | nil =>
      exact ⟨rest, rfl, fun stream hs => hso stream (mem_cons_of_mem _ hs), ho, .refl _⟩
    | cons a tail =>
      have hp : (rest.takeWhile (streamLess cmp · (a :: tail)) ++
          (a :: tail) :: rest.dropWhile (streamLess cmp · (a :: tail))).Perm ((a :: tail) :: rest) := by
        refine perm_middle.trans (Perm.cons _ ?_)
        rw [takeWhile_append_dropWhile]
      refine ⟨_, ?_, fun stream hs => hso stream (hp.mem_iff.mp hs), ho.insert (by simp),
        hp.flatten⟩
      have hne : (rest.takeWhile (streamLess cmp · (a :: tail)) ++
          (a :: tail) :: rest.dropWhile (streamLess cmp · (a :: tail))).isEmpty = false := by simp
      rw [hne]
      rfl

theorem HeadsSorted.eq_nil (h : HeadsSorted cmp streams) (hem : streams.flatten = []) : streams = [] := by
  cases streams with
  | nil => rfl
  | cons first rest =>
    have hf := flatten_eq_nil_iff.mp hem first (mem_cons_self ..)
    exact absurd hf (h.1 first (mem_cons_self ..))

/-- A call with nothing left. No further call is defined. -/
theorem pull_idle [TransCmp cmp] (hr : Ready cmp array) (hem : array.streams.flatten = []) :
    pull cmp array = some (none, { isFirst := false, streams := [] }) := by
  obtain ⟨streams, hn, _, ho, hp⟩ := next_cases hr
  obtain rfl := ho.eq_nil (hem ▸ hp).eq_nil
  rw [pull, hn]
  rfl

theorem pull_picks [TransCmp cmp] :
    Picks (fun a b => (cmp a b).isLT) id (fun _ _ => True) (pull cmp) (Ready cmp) fun array => array.streams.flatten where
  idle array hr hem := ⟨_, pull_idle hr hem⟩
  pick array hr hne := by
    obtain ⟨streams, hn, hso, ho, hp⟩ := next_cases hr
    have hs : streams ≠ [] := by
      rintro rfl
      exact hne hp.symm.eq_nil
    rw [isEmpty_eq_false_iff.mpr hs] at hn
    obtain ⟨a, array', hpull, hr', hpe', hl⟩ := pick_of_next hso ho hs hn
    exact ⟨a, array', hpull, hr', hpe'.trans hp, fun b hb => hl b (hp.mem_iff.mpr hb), trivial⟩
  marked_perm _ _ _ _ _ := trivial

theorem create_ready [TransCmp cmp] (S : ComparisonSort)
    (hso : ∀ stream ∈ streams, Sorted (fun a b => (cmp a b).isLT) stream) :
    Ready cmp (create cmp S streams) ∧ (create cmp S streams).streams.flatten.Perm streams.flatten := by
  have hl : StrictWeakOrder fun left right : α × List α => (cmp left.1 right.1).isLT :=
    (strictWeak_isLT cmp).comap Prod.fst
  have hp := S.perm _ (streams.filterMap withData) hl
  have ho := S.sorted _ (streams.filterMap withData) hl
  have hd : (streams.filterMap withData).map (fun stream => stream.1 :: stream.2) = streams.filter (· ≠ []) := by
    clear hso hp ho
    induction streams with
    | nil => rfl
    | cons stream streams ih =>
      cases stream with
      | nil => exact ih
      | cons a tail =>
        have hc : (streams.filterMap withData).map (fun stream => stream.1 :: stream.2) = _ := ih
        rw [filterMap_cons_some (show withData (a :: tail) = some (a, tail) from rfl), map_cons, hc]
        rfl
  have hst : (create cmp S streams).streams.Perm (streams.filter (· ≠ [])) := hd ▸ hp.map _
  have hf : (streams.filter (· ≠ [])).flatten = streams.flatten := flatten_filter_ne_nil
  refine ⟨⟨fun stream hs => ?_, fun _ => ⟨fun stream hs => ?_, ?_⟩, fun h => by cases h⟩, ?_⟩
  · exact hso stream (mem_of_mem_filter (hst.mem_iff.mp hs))
  · obtain ⟨pair, _, rfl⟩ := mem_map.mp hs
    exact cons_ne_nil _ _
  · exact pairwise_map.mpr ho
  · exact hf ▸ hst.flatten

/-- The second call that would find nothing reads the first of no streams. -/
theorem answers_eq_none [TransCmp cmp] (hre : Ready cmp array) {calls : ℕ}
    (hc : array.streams.flatten.length + 2 ≤ calls) : answers (pull cmp) calls array = none := by
  generalize hl : array.streams.flatten.length = n at hc
  induction n generalizing array calls with
  | zero =>
    obtain ⟨calls, rfl⟩ : ∃ more, calls = more + 2 := ⟨calls - 2, by omega⟩
    have hidl := pull_idle hre (eq_nil_of_length_eq_zero hl)
    have hu : pull cmp { isFirst := false, streams := [] } = none := rfl
    simp only [answers, hidl, hu, Option.map_none]
  | succ n ih =>
    obtain ⟨calls, rfl⟩ : ∃ more, calls = more + 1 := ⟨calls - 1, by omega⟩
    obtain ⟨a, array', hpull, hr', hp, _⟩ := pull_picks.pick array hre (ne_nil_of_length_eq_add_one hl)
    have hs := hp.length_eq
    rw [length_cons] at hs
    have hr := @ih array' hr' calls (by omega) (by omega)
    simp only [answers, hpull, hr, Option.map_none]

end MergeArray

namespace TreeOfLosers

/-- The answers of a number of calls after the constructor, with any way to call. -/
def runs {ρ : Type} (bits : ℕ) (streams : List (List α)) (step : TreeOfLosers α → Option (Option ρ × TreeOfLosers α)) (calls : ℕ) :
    Option (List (Option ρ)) :=
  match create bits streams with
  | .error _ => none
  | .ok tree => answers step calls tree

/-- Where the leaves need more node numbers than there are, the first call does not return. -/
theorem pull_diverges {tree : TreeOfLosers α} (hl : tree.lastIndex = none) (hb : 0 < tree.bits)
    (hw : 2 ^ tree.bits ≤ 2 * tree.firstStream) (fuel : ℕ) : pull cmp fuel tree = none := by
  have hp := Nat.two_pow_pos tree.bits
  have hf : tree.first cmp fuel 0 = none := descend_diverges _ _ hw fuel hb _
  have hn : tree.next cmp fuel = none := by
    rw [next, hl]
    rw [if_neg (by omega), hf]
    rfl
  rw [pull, hn]

theorem pullWithEquals_diverges {isNextEqual : List α → Bool} {tree : TreeOfLosers α} (hl : tree.lastIndex = none)
    (hb : 0 < tree.bits) (hw : 2 ^ tree.bits ≤ 2 * tree.firstStream) (fuel : ℕ) :
    pullWithEquals cmp isNextEqual fuel tree = none := by
  have hp := Nat.two_pow_pos tree.bits
  have hf : tree.firstWithEquals cmp isNextEqual fuel 0 = none := descend_diverges _ _ hw fuel hb _
  have hn : tree.nextWithEquals cmp isNextEqual fuel = none := by
    rw [nextWithEquals, hl]
    rw [if_neg (by omega), hf]
    rfl
  rw [pullWithEquals, hn]

section Runs

variable {bits : ℕ} {streams : List (List α)} {ρ : Type} {step : TreeOfLosers α → Option (Option ρ × TreeOfLosers α)}
  (hpos : 1 ≤ streams.length) (hlt : streams.length < 2 ^ bits - 1)
include hpos hlt

theorem runs_eq (hlevels : streams.length ≤ 2 ^ 30) (step : TreeOfLosers α → Option (Option ρ × TreeOfLosers α))
    (calls : ℕ) : runs bits streams step calls = answers step calls
      { bits := bits, streams := streams, values := fun _ => none, equals := fun _ => false, lastIndex := none,
        firstStream := RadixSort.firstStreamOf streams.length } := by
  rw [runs, create_ok hpos hlt hlevels]

/-- A way to call that does not return where node numbers are missing answers only where the
streams fit. -/
theorem fits_of_runs (hdiverges : ∀ {tree : TreeOfLosers α}, tree.lastIndex = none → 0 < tree.bits →
      2 ^ tree.bits ≤ 2 * tree.firstStream → step tree = none) {merged : List ρ}
    (hruns : ∀ calls, runs bits streams step calls = some (inTurn merged calls)) :
    streams.length ≤ 2 ^ 30 ∧ 2 * streams.length - 2 < 2 ^ bits := by
  have hlevels : streams.length ≤ 2 ^ 30 := by
    by_contra hlevels
    have hzero := hruns 0
    rw [runs, create, if_neg (not_not.mpr hlt), if_neg (not_not.mpr hpos), if_pos (not_le.mp hlevels)] at hzero
    cases hzero
  refine ⟨hlevels, ?_⟩
  by_contra hbits
  have hfirst := firstStreamOf_eq hpos
  have hbitsPos : 0 < bits := by
    by_contra hzero
    obtain rfl : bits = 0 := by omega
    omega
  have hone := hruns 1
  rw [runs_eq hpos hlt hlevels] at hone
  simp only [answers] at hone
  rw [hdiverges rfl hbitsPos (by dsimp only; omega)] at hone
  cases hone

end Runs

end TreeOfLosers

open TreeOfLosers in
/-- For streams that the constructor of the tree accepts, `next` merges and then returns nothing
on every later call just when the level sizes fit 32 bits and the leaves have node numbers of
their own. For `nextWithEquals` the same holds. `MergeArray` merges any streams, just when no
call is made after the one that found nothing. -/
theorem streamsMerge_iff (cmp : α → α → Ordering) [TransCmp cmp] (S : ComparisonSort) (isNextEqual : List α → Bool)
    (hnextEqual : TellsNext cmp isNextEqual) (bits : ℕ) (streams : List (List α))
    (hsorted : ∀ stream ∈ streams, Sorted (fun a b => (cmp a b).isLT) stream) :
    (1 ≤ streams.length → streams.length < 2 ^ bits - 1 →
      ((∃ merged fuel, MergeOf (fun a b => (cmp a b).isLT) id (fun _ _ => True) streams.flatten merged ∧
          ∀ calls, runs bits streams (pull cmp fuel) calls = some (inTurn merged calls)) ↔
        streams.length ≤ 2 ^ 30 ∧ 2 * streams.length - 2 < 2 ^ bits) ∧
      ((∃ merged fuel, MergeOf (fun a b => (cmp a b).isLT) Prod.fst (MarksEquals cmp) streams.flatten merged ∧
          ∀ calls, runs bits streams (pullWithEquals cmp isNextEqual fuel) calls = some (inTurn merged calls)) ↔
        streams.length ≤ 2 ^ 30 ∧ 2 * streams.length - 2 < 2 ^ bits)) ∧
    ∀ calls, (∃ merged, MergeOf (fun a b => (cmp a b).isLT) id (fun _ _ => True) streams.flatten merged ∧
        answers (MergeArray.pull cmp) calls (MergeArray.create cmp S streams) = some (inTurn merged calls)) ↔
      calls ≤ streams.flatten.length + 1 := by
  refine ⟨fun hpos hlt => ⟨⟨?_, ?_⟩, ?_, ?_⟩, fun calls => ?_⟩
  · rintro ⟨merged, fuel, -, hruns⟩
    exact fits_of_runs hpos hlt (fun hl hb hw => pull_diverges hl hb hw fuel) hruns
  · rintro ⟨hlevels, hbits⟩
    obtain ⟨merged, hmerged, hpulls⟩ := (pull_picks streams.length).answers
      (@create_readyWith _ cmp isNextEqual False bits streams hpos hbits hsorted)
    exact ⟨merged, streams.length, hmerged, fun calls =>
      (runs_eq hpos hlt hlevels _ calls).trans (hpulls calls (.inr fun _ => pull_idle))⟩
  · rintro ⟨merged, fuel, -, hruns⟩
    exact fits_of_runs hpos hlt (fun hl hb hw => pullWithEquals_diverges hl hb hw fuel) hruns
  · rintro ⟨hlevels, hbits⟩
    obtain ⟨merged, hmerged, hpulls⟩ := (pullWithEquals_picks hnextEqual streams.length).answers
      (create_readyWith hpos hbits hsorted)
    exact ⟨merged, streams.length, hmerged, fun calls =>
      (runs_eq hpos hlt hlevels _ calls).trans (hpulls calls (.inr fun _ => pullWithEquals_idle))⟩
  · obtain ⟨harray, hperm⟩ := MergeArray.create_ready S hsorted
    constructor
    · rintro ⟨merged, -, hanswers⟩
      by_contra hcalls
      rw [MergeArray.answers_eq_none harray (by rw [hperm.length_eq]; omega)] at hanswers
      cases hanswers
    · intro hcalls
      obtain ⟨merged, hmerged, hanswers⟩ := MergeArray.pull_picks.answers harray
      have hlength := hmerged.perm.length_eq
      rw [length_map, hperm.length_eq] at hlength
      exact ⟨merged, { hmerged with perm := hmerged.perm.trans hperm }, hanswers calls (.inl (by omega))⟩

/-- `isNextEqual` as the comparison of the first two elements. -/
def headRepeats (cmp : α → α → Ordering) : List α → Bool
  | a :: b :: _ => (cmp a b).isEq
  | _ => false

theorem headRepeats_tellsNext (cmp : α → α → Ordering) : TreeOfLosers.TellsNext cmp (headRepeats cmp) := by
  intro a rest
  cases rest with
  | nil => simp [headRepeats]
  | cons b rest => simp [headRepeats, Ordering.isEq_iff_eq_eq]

open TreeOfLosers in
theorem streamsMerge_iff_overlapping :
    (∀ stream ∈ [[1, 3], [], [1, 2]], Sorted (fun a b : ℕ => (compare a b).isLT) stream) ∧
      ∃ merged fuel, MergeOf (fun a b => (compare a b).isLT) Prod.fst (MarksEquals compare) [1, 3, 1, 2] merged ∧
        ∀ calls, runs 16 [[1, 3], [], [1, 2]] (pullWithEquals compare (headRepeats compare) fuel) calls =
          some (inTurn merged calls) :=
  have hsorted : ∀ stream ∈ [[1, 3], [], [1, 2]], Sorted (fun a b : ℕ => (compare a b).isLT) stream := by decide
  ⟨hsorted, ((streamsMerge_iff compare ComparisonSort.insertion (headRepeats compare) (headRepeats_tellsNext compare) 16
    [[1, 3], [], [1, 2]] hsorted).1 (by decide) (by decide)).2.mpr ⟨by decide, by decide⟩⟩

open TreeOfLosers in
/-- With 16-bit node numbers the first call over 32769 streams does not return, and the third
call to a `MergeArray` over one element is undefined. -/
theorem streamsMerge_fails : (∀ fuel, runs 16 (replicate 32769 ([] : List ℕ)) (pull compare fuel) 1 = none) ∧
      answers (MergeArray.pull compare) 3 (MergeArray.create compare ComparisonSort.insertion [[1]]) = none := by
  constructor
  · intro fuel
    have hlength : (replicate 32769 ([] : List ℕ)).length = 32769 := length_replicate
    have hfirst := firstStreamOf_eq (show 1 ≤ 32769 by omega)
    rw [runs, create_ok (by omega) (by omega) (by omega), hlength]
    simp only [answers]
    rw [pull_diverges rfl (by decide) (by dsimp only; omega)]
  · decide

end Bolt.Exec
