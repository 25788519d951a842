import Bolt.Lib.Sorting

/-!
# Merging sorted sources

What has been taken from sorted sources, always a least head, is sorted and not after
anything that is left. One rule for taking a head, and the rows as a multiset.
-/

namespace Bolt.Lib.Merging

open Sorting List

variable {α : Type} {less : α → α → Bool}
variable {sources : List (List α)}

/-- What was taken so far, and what the sources still have. -/
structure Merged (less : α → α → Bool) (taken : List α) (sources : List (List α)) : Prop where
  sorted : Sorted less taken
  sources_sorted : ∀ source ∈ sources, Sorted less source
  after : ∀ a ∈ taken, ∀ source ∈ sources, ∀ b ∈ source, less b a = false

theorem Merged.start (h : ∀ source ∈ sources, Sorted less source) : Merged less [] sources where
  sorted := Pairwise.nil
  sources_sorted := h
  after a ha := by cases ha

theorem Merged.mono {taken : List α} {sources' : List (List α)} (h : Merged less taken sources)
    (hsu : ∀ source ∈ sources', source ∈ sources) : Merged less taken sources' where
  sorted := h.sorted
  sources_sorted source hs := h.sources_sorted source (hsu source hs)
  after a ha source hs := h.after a ha source (hsu source hs)

theorem head_least (hl : StrictWeakOrder less) {sources : List (List α)} (hso : ∀ source ∈ sources, Sorted less source)
    {a : α} (hlea : ∀ source ∈ sources, ∀ b, source.head? = some b → less b a = false) {source : List α}
    (hs : source ∈ sources) {b : α} (hb : b ∈ source) : less b a = false := by
  cases source with
  | nil => cases hb
  | cons c rest =>
    have hc := hlea _ hs c rfl
    rcases mem_cons.mp hb with rfl | hr
    · exact hc
    · exact hl.negTrans hc ((pairwise_cons.mp (hso _ hs)).1 b hr)

section

variable {i : ℕ} {a : α} {rest : List α} (hi : sources[i]? = some (a :: rest))
include hi

theorem mem_of_mem_set {source : List α} (h : source ∈ sources.set i rest) {b : α} (hb : b ∈ source) :
    ∃ other ∈ sources, b ∈ other := by
  rcases mem_or_eq_of_mem_set h with hm | rfl
  · exact ⟨source, hm, hb⟩
  · exact ⟨a :: source, mem_of_getElem? hi, mem_cons_of_mem a hb⟩

/-- Taking a least head keeps the taken sorted and below the rest. -/
theorem Merged.take (hl : StrictWeakOrder less) {taken : List α} (h : Merged less taken sources)
    (hlea : ∀ source ∈ sources, ∀ b, source.head? = some b → less b a = false) :
    Merged less (taken ++ [a]) (sources.set i rest) where
  sorted := by
    refine pairwise_append.mpr ⟨h.sorted, pairwise_singleton _ a, ?_⟩
    intro x hx y hy
    rw [mem_singleton] at hy
    subst hy
    exact h.after x hx _ (mem_of_getElem? hi) y (mem_cons_self ..)
  sources_sorted source hs := by
    rcases mem_or_eq_of_mem_set hs with hm | rfl
    · exact h.sources_sorted source hm
    · exact (pairwise_cons.mp (h.sources_sorted _ (mem_of_getElem? hi))).2
  after x hx source hs b hb := by
    obtain ⟨other, ho, hb⟩ := mem_of_mem_set hi hs hb
    rcases mem_append.mp hx with hx | hx
    · exact h.after x hx other ho b hb
    · rw [mem_singleton] at hx
      subst hx
      exact head_least hl h.sources_sorted hlea ho hb

theorem perm_flatten_set : (a :: (sources.set i rest).flatten).Perm sources.flatten := by
  induction sources generalizing i with
  | nil => cases hi
  | cons source sources ih =>
    cases i with
    | zero =>
      injection hi with hi
      subst hi
      exact .refl _
    | succ i =>
      exact perm_middle.symm.trans ((ih hi).append_left source)

end

/-! ## Taking one element after the other -/

section Picks

variable {σ ρ : Type}

def answers (step : σ → Option (Option ρ × σ)) : ℕ → σ → Option (List (Option ρ))
  | 0, _ => some []
  | calls + 1, s =>
    match step s with
    | none => none
    | some (answer, s') => (answers step calls s').map (answer :: ·)

/-- The elements in their order, and nothing in every later call. -/
def inTurn (merged : List ρ) (calls : ℕ) : List (Option ρ) := (range calls).map (merged[·]?)

/-- A merge of elements, each marked with something about what comes after it. -/
structure MergeOf (less : α → α → Bool) (elem : ρ → α) (marked : ρ → List α → Prop) (all : List α) (merged : List ρ) : Prop where
  perm : (merged.map elem).Perm all
  sorted : Sorted less (merged.map elem)
  marks : ∀ i r, merged[i]? = some r → marked r ((merged.drop (i + 1)).map elem)

/-- Each call takes a least element of what is left. -/
structure Picks (less : α → α → Bool) (elem : ρ → α) (marked : ρ → List α → Prop) (step : σ → Option (Option ρ × σ))
    (Ready : σ → Prop) (rest : σ → List α) : Prop where
  idle : ∀ s, Ready s → rest s = [] → ∃ s', step s = some (none, s')
  pick : ∀ s, Ready s → rest s ≠ [] → ∃ r s', step s = some (some r, s') ∧ Ready s' ∧
    (elem r :: rest s').Perm (rest s) ∧ (∀ b ∈ rest s, less b (elem r) = false) ∧ marked r (rest s')
  marked_perm : ∀ r l m, l.Perm m → marked r l → marked r m

theorem inTurn_nil (calls : ℕ) : inTurn ([] : List ρ) calls = replicate calls none := by
  unfold inTurn
  simp

theorem inTurn_cons (r : ρ) (merged : List ρ) (calls : ℕ) : inTurn (r :: merged) (calls + 1) = some r :: inTurn merged calls := by
  unfold inTurn
  rw [range_succ_eq_map, map_cons, map_map]
  rfl

variable {elem : ρ → α} {marked : ρ → List α → Prop}

theorem mergeOf_nil : MergeOf less elem marked [] [] where
  perm := .refl _
  sorted := Pairwise.nil
  marks i r h := by cases h

theorem MergeOf.cons {all rest : List α} {merged : List ρ} (h : MergeOf less elem marked rest merged) {r : ρ}
    (hp : (elem r :: rest).Perm all) (hl : ∀ b ∈ all, less b (elem r) = false)
    (hm : marked r (merged.map elem)) : MergeOf less elem marked all (r :: merged) where
  perm := (h.perm.cons (elem r)).trans hp
  sorted := by
    refine pairwise_cons.mpr ⟨fun b hb => hl b ?_, h.sorted⟩
    exact hp.mem_iff.mp (mem_cons_of_mem _ (h.perm.mem_iff.mp hb))
  marks i q hq := by
    cases i with
    | zero =>
      injection hq with hq
      subst hq
      exact hm
    | succ i => exact h.marks i q hq

variable {step : σ → Option (Option ρ × σ)} {Ready : σ → Prop} {rest : σ → List α}

/-- The calls up to the first one that finds nothing are answered, and all calls where such a
call can be repeated. -/
theorem Picks.answers (h : Picks less elem marked step Ready rest) {s : σ} (hs : Ready s) :
    ∃ merged, MergeOf less elem marked (rest s) merged ∧ ∀ calls, (calls ≤ merged.length + 1 ∨
        ∀ s, Ready s → rest s = [] → ∃ s', step s = some (none, s') ∧ Ready s' ∧ rest s' = []) →
      answers step calls s = some (inTurn merged calls) := by
  generalize hl : (rest s).length = n
  induction n generalizing s with
  | zero =>
    have hem := eq_nil_of_length_eq_zero hl
    refine ⟨[], hem ▸ mergeOf_nil, fun calls hcalls => ?_⟩
    clear hl
    induction calls generalizing s with
    | zero => rfl
    | succ calls ih =>
      rcases hcalls with hc | hidle
      · obtain rfl : calls = 0 := by simpa using hc
        obtain ⟨s', hst⟩ := h.idle s hs hem
        simp only [Merging.answers, hst]
        rfl
      · obtain ⟨s', hst, hs', hr'⟩ := hidle s hs hem
        simp only [Merging.answers, hst, ih hs' hr' (.inr hidle), inTurn_nil, Option.map_some, replicate_succ]
  | succ n ih =>
    obtain ⟨r, s', hst, hs', hp, hlea, hma⟩ := h.pick s hs (ne_nil_of_length_eq_add_one hl)
    have hles := hp.length_eq
    rw [length_cons] at hles
    obtain ⟨merged, hm, hanswers⟩ := ih hs' (by omega)
    refine ⟨r :: merged, hm.cons hp hlea (h.marked_perm r _ _ hm.perm.symm hma), fun calls hcalls => ?_⟩
    cases calls with
    | zero => rfl
    | succ calls =>
      rw [length_cons, Nat.add_le_add_iff_right] at hcalls
      simp only [Merging.answers, hst, inTurn_cons, hanswers calls hcalls, Option.map_some]

end Picks

end Bolt.Lib.Merging
