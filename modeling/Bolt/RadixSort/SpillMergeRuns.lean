import Bolt.RadixSort.KeyCompare
import Bolt.RadixSort.SpillMergeSelect

/-!
# Whole merges

Rows are collected, the stream over the run in memory is replaced by the spilled rest of
the same run, or removed when it is at its end, in any order. What all calls together have
passed to `flushRows` is sorted, and with what the streams still have it is the multiset
of all rows. No row is flushed after its buffer was replaced.
-/

namespace Bolt.RadixSort

open Lib Lib.Sorting Lib.Merging List MergeStream

variable {R : Type} {less : R → R → Bool}

/-- There is a current row as long as there are rows, and a run in memory has one block. -/
structure MergeStream.Loaded (stream : MergeStream R) : Prop where
  current : stream.current = [] → stream.later = []
  memory : stream.inMemory = true → stream.later = []

namespace MergeStream

variable {stream next : MergeStream R} {record : R}

theorem Loaded.key_eq (h : stream.Loaded) : stream.key = stream.rows.head? := by
  unfold key rows
  cases hcu : stream.current with
  | nil =>
    rw [h.current hcu]
    rfl
  | cons row rows => rfl

theorem current_of_key (hke : stream.key = some record) : ∃ rest, stream.current = record :: rest := by
  unfold key at hke
  cases hcu : stream.current with
  | nil =>
    rw [hcu] at hke
    cases hke
  | cons row rest =>
    rw [hcu] at hke
    injection hke with hke
    exact ⟨rest, by rw [hke]⟩

theorem tryAdvance_spec (h : stream.Loaded) (hke : stream.key = some record) (hn : stream.tryAdvance = some next) :
    next.Loaded ∧ stream.rows = record :: next.rows ∧ next.generation = stream.generation := by
  obtain ⟨rest, hcu⟩ := current_of_key hke
  unfold tryAdvance at hn
  split_ifs at hn with hins
  injection hn with hn
  subst hn
  refine ⟨⟨?_, h.memory⟩, ?_, rfl⟩
  · intro hem
    rw [hcu] at hins hem
    subst hem
    exact h.memory (by simpa using hins)
  · unfold rows
    rw [hcu]
    rfl

theorem loadBatch_loaded (hs : stream.inMemory = false) : stream.loadBatch.Loaded := by
  unfold loadBatch
  split
  · exact ⟨fun _ => rfl, fun _ => rfl⟩
  · rename_i block blocks hl
    refine ⟨fun hem => ?_, fun hm => ?_⟩
    · exact absurd hem (stream.later_ne block (by rw [hl]; simp))
    · rw [hs] at hm
      cases hm

theorem loadBatch_rows : stream.loadBatch.rows = stream.later.flatten := by
  unfold loadBatch rows
  split
  · rename_i hl
    rw [hl]
    rfl
  · rename_i block blocks hl
    dsimp only
    rw [hl]
    rfl

theorem advanceAfterFlush_spec (hke : stream.key = some record) (hen : stream.tryAdvance = none) :
    stream.advanceAfterFlush.Loaded ∧ stream.rows = record :: stream.advanceAfterFlush.rows := by
  obtain ⟨rest, hcu⟩ := current_of_key hke
  unfold tryAdvance at hen
  split_ifs at hen with hins
  rw [hcu] at hins
  obtain ⟨hm, hl⟩ : stream.inMemory = false ∧ rest = [] := by simpa using hins
  refine ⟨loadBatch_loaded hm, ?_⟩
  unfold advanceAfterFlush
  rw [loadBatch_rows, rows, hcu, hl]
  rfl

end MergeStream

namespace Merger

def rowLists (merger : Merger R) : List (List R) := merger.streams.map MergeStream.rows

def Fresh (merger : Merger R) (segment : List (CollectedRow R)) : Prop :=
  ∀ row ∈ segment, merger.streams[row.stream]?.map generation = some row.generation

/-- What was taken so far and the rows of the streams. -/
structure Collecting (less : R → R → Bool) (taken : List R) (merger : Merger R) : Prop where
  loaded : ∀ stream ∈ merger.streams, stream.Loaded
  merged : Merged less taken merger.rowLists

variable {merger : Merger R} {segment : List (CollectedRow R)} {taken : List R}

theorem flushRows_fresh (h : merger.Fresh segment) : merger.flushRows segment = .ok (segment.map CollectedRow.record) := by
  unfold flushRows
  rw [if_pos]
  rw [all_eq_true]
  intro row hr
  rw [beq_iff_eq]
  exact h row hr

/-- The stream goes on by one row, and what was collected stays readable. -/
theorem advance_spec {index : ℕ} {stream : MergeStream R} {record : R} (hs : merger.streams[index]? = some stream)
    (hl : stream.Loaded) (hke : stream.key = some record) (hf : merger.Fresh segment) :
    ∃ next segment' flushed, merger.advance index stream segment =
        .ok ({ merger with streams := merger.streams.set index next }, segment', flushed) ∧
      flushed ++ segment'.map CollectedRow.record = segment.map CollectedRow.record ∧ next.Loaded ∧
      stream.rows = record :: next.rows ∧ Fresh { merger with streams := merger.streams.set index next } segment' := by
  unfold advance
  cases ha : stream.tryAdvance with
  | some next =>
    obtain ⟨hn, hro, hgeneration⟩ := tryAdvance_spec hl hke ha
    refine ⟨next, segment, [], rfl, rfl, hn, hro, ?_⟩
    intro row hr
    have hr := hf row hr
    by_cases heq : index = row.stream
    · subst heq
      rw [hs] at hr
      have hlt : row.stream < merger.streams.length := (List.getElem?_eq_some_iff.mp hs).1
      rw [getElem?_set_self hlt, Option.map_some, hgeneration]
      exact hr
    · rw [getElem?_set_ne heq]
      exact hr
  | none =>
    obtain ⟨hn, hro⟩ := advanceAfterFlush_spec hke ha
    refine ⟨stream.advanceAfterFlush, [], segment.map CollectedRow.record, ?_, append_nil _, hn, hro, ?_⟩
    · rw [flushRows_fresh hf]
      rfl
    · intro row hr
      cases hr

theorem getElem?_of_keyAt {index : ℕ} {record : R} (h : merger.keyAt index = some record) :
    ∃ stream, merger.streams[index]? = some stream ∧ stream.key = some record := by
  unfold keyAt at h
  cases hs : merger.streams[index]? with
  | none =>
    rw [hs] at h
    cases h
  | some stream =>
    rw [hs] at h
    exact ⟨stream, rfl, h⟩

section Collecting

variable (hc : merger.Collecting less taken)
include hc

theorem Collecting.exists_key (hr : 0 < merger.rowLists.flatten.length) : ∃ i, (merger.keyAt i).isSome := by
  obtain ⟨row, rest, hf⟩ := exists_cons_of_length_pos hr
  have hm : row ∈ merger.rowLists.flatten := by
    rw [hf]
    exact mem_cons_self ..
  obtain ⟨rows, hr, hro⟩ := mem_flatten.mp hm
  obtain ⟨stream, hs, rfl⟩ := mem_map.mp hr
  obtain ⟨i, hi⟩ := mem_iff_getElem?.mp hs
  refine ⟨i, ?_⟩
  unfold keyAt
  rw [hi, Option.bind_some, (hc.loaded stream hs).key_eq]
  cases hlist : stream.rows with
  | nil =>
    rw [hlist] at hro
    cases hro
  | cons first others => rfl

theorem Collecting.take (hless : StrictWeakOrder less) {index : ℕ} {record : R} (hs : merger.Selected less index record)
    {stream next : MergeStream R} (hst : merger.streams[index]? = some stream) (hn : next.Loaded)
    (hr : stream.rows = record :: next.rows) (losers : ℕ → Option ℕ) (lastIndex : Option ℕ) :
    Collecting less (taken ++ [record])
        { merger with losers := losers, lastIndex := lastIndex, streams := merger.streams.set index next } ∧
      (record :: (rowLists
        { merger with losers := losers, lastIndex := lastIndex, streams := merger.streams.set index next }).flatten).Perm
        merger.rowLists.flatten := by
  have hl : rowLists { merger with losers := losers, lastIndex := lastIndex, streams := merger.streams.set index next } =
      merger.rowLists.set index next.rows := map_set
  have hind : merger.rowLists[index]? = some (record :: next.rows) := by
    rw [rowLists, getElem?_map, hst, Option.map_some, hr]
  rw [hl]
  refine ⟨⟨?_, ?_⟩, perm_flatten_set hind⟩
  · intro other ho
    rcases mem_or_eq_of_mem_set ho with hm | rfl
    · exact hc.loaded other hm
    · exact hn
  · rw [hl]
    refine hc.merged.take hind hless ?_
    intro rows hm b hb
    obtain ⟨other, ho, rfl⟩ := mem_map.mp hm
    obtain ⟨i, hi⟩ := mem_iff_getElem?.mp ho
    refine hs.least i b ?_
    unfold keyAt
    rw [hi, Option.bind_some, (hc.loaded other ho).key_eq]
    exact hb

end Collecting

/-- The loop passes the pointers it has and the rows it takes to `flushRows`. -/
theorem collectLoop_spec (hless : StrictWeakOrder less) {next : Merger R → Except MergeError (ℕ × Merger R)}
    {Ready : Merger R → Prop} (hsel : Selects less next Ready) {count : ℕ} (hre : Ready merger)
    (hc : merger.Collecting less taken) (hf : merger.Fresh segment)
    (hco : count ≤ merger.rowLists.flatten.length) :
    ∃ losers lastIndex streams picked, collectLoop next count merger segment =
        .ok ({ merger with losers := losers, lastIndex := lastIndex, streams := streams },
          segment.map CollectedRow.record ++ picked) ∧
      Ready { merger with losers := losers, lastIndex := lastIndex, streams := streams } ∧
      Collecting less (taken ++ picked) { merger with losers := losers, lastIndex := lastIndex, streams := streams } ∧
      (picked ++ (streams.map MergeStream.rows).flatten).Perm merger.rowLists.flatten ∧
      streams.length = merger.streams.length := by
  induction count generalizing merger segment taken with
  | zero =>
    refine ⟨merger.losers, merger.lastIndex, merger.streams, [], ?_, hre, ?_, .refl _, rfl⟩
    · unfold collectLoop
      by_cases hem : segment = []
      · subst hem
        rfl
      · rw [if_neg hem, flushRows_fresh hf, append_nil]
        rfl
    · rw [append_nil]
      exact hc
  | succ count ih =>
    obtain ⟨index, losers, lastIndex, record, hn, hse, hrea'⟩ :=
      hsel merger hre (hc.exists_key (by omega))
    obtain ⟨stream, hs, hke⟩ := getElem?_of_keyAt hse.key
    have hlo := hc.loaded stream (mem_of_getElem? hs)
    have hf' : Fresh { merger with losers := losers, lastIndex := lastIndex }
        (segment ++ [⟨index, stream.generation, record⟩]) := by
      intro row hr
      rcases mem_append.mp hr with hr | hr
      · exact hf row hr
      · rw [mem_singleton] at hr
        subst hr
        rw [hs]
        rfl
    obtain ⟨advanced, segment', flushed, ha, hflushed, hadvanced, hro, hf''⟩ :=
      @advance_spec R { merger with losers := losers, lastIndex := lastIndex } _ index stream record hs hlo hke hf'
    obtain ⟨ht, hp⟩ := hc.take hless hse hs hadvanced hro losers lastIndex
    have hlen := hp.length_eq
    rw [length_cons] at hlen
    obtain ⟨losers', lastIndex', streams', picked, hl, hrea'', hcollecting', hpe', hst⟩ :=
      ih (hrea' advanced) ht hf'' (by omega)
    refine ⟨losers', lastIndex', streams', record :: picked, ?_, hrea'', ?_, ?_, ?_⟩
    · unfold collectLoop
      rw [hn]
      simp only [Bind.bind, Except.bind, hs, hke, ha]
      rw [hl]
      simp only [pure, Except.pure]
      rw [← append_assoc, hflushed, map_append, append_assoc]
      rfl
    · rw [append_cons]
      exact hcollecting'
    · exact (hpe'.cons record).trans hp
    · rw [hst]
      exact length_set ..

variable (merger) in
def sources : List (MergeStream R) :=
  match merger.pending with
  | none => merger.streams
  | some (index, stream) => merger.streams.set index stream

variable (merger) in
def remaining : List R := (merger.sources.map MergeStream.rows).flatten

/-- What holds between calls, with the rows that were passed to `flushRows` so far. -/
structure Consistent (less : R → R → Bool) (taken : List R) (merger : Merger R) : Prop where
  loaded : ∀ stream ∈ merger.sources, stream.Loaded
  merged : Merged less taken (merger.sources.map MergeStream.rows)
  bounded : merger.streams.length ≤ kMaxStreams
  memory : ∀ index, merger.memoryIndex = some index → merger.pending = none
  tree : merger.pending = none → 2 < merger.streams.length → merger.TreeReady less

theorem resetSelection_spec (hb : merger.streams.length ≤ kMaxStreams) :
    ∃ firstStream, merger.resetSelection = .ok { merger with firstStream := firstStream, losers := fun _ => none, lastIndex := none } ∧
      (2 < merger.streams.length →
        TreeReady less { merger with firstStream := firstStream, losers := fun _ => none, lastIndex := none }) := by
  unfold resetSelection
  rw [if_neg (not_lt.mpr hb)]
  split_ifs with hs
  · exact ⟨0, rfl, fun h => absurd h (not_lt.mpr hs)⟩
  · refine ⟨_, rfl, fun h => ⟨?_, h, Or.inl ⟨rfl, rfl⟩⟩⟩
    exact firstStreamOf_add_one (by omega)

theorem Consistent.reset (hl : ∀ stream ∈ merger.streams, stream.Loaded) (hm : Merged less taken merger.rowLists)
    (hb : merger.streams.length ≤ kMaxStreams) (hp : merger.pending = none) :
    ∃ merger', merger.resetSelection = .ok merger' ∧ merger'.Consistent less taken ∧ merger'.remaining = merger.rowLists.flatten := by
  obtain ⟨firstStream, hr, ht⟩ := @resetSelection_spec R less merger hb
  refine ⟨_, hr, ⟨?_, ?_, hb, fun _ _ => hp, fun _ => ht⟩, ?_⟩
  · unfold sources
    rw [hp]
    exact hl
  · unfold sources
    rw [hp]
    exact hm
  · unfold remaining sources
    rw [hp]
    rfl

end Merger

inductive MergeCall (R : Type) where
  | collectRows (count : ℕ)
  | replaceMemory (files : List (List (List R))) (h : ∀ block ∈ files.flatten, block ≠ [])
  | finishMemoryReplacement
  | removeMemory

namespace Merger

variable (less) (merger : Merger R)

def call : MergeCall R → Except MergeError (Merger R × List R)
  | .collectRows count => merger.collectRows less count
  | .replaceMemory files h => (merger.replaceMemory files h).map fun merger => (merger, [])
  | .finishMemoryReplacement => merger.finishMemoryReplacement.map fun merger => (merger, [])
  | .removeMemory => merger.removeMemory.map fun merger => (merger, [])

/-- No more rows are asked for than there are, and not while a stream is reset. The stream
over the run in memory is replaced by files with the rows it still has, and removed only at
its end. -/
def Legal : MergeCall R → Prop
  | .collectRows count => merger.pending = none ∧ count ≤ merger.remaining.length
  | .replaceMemory files _ => files ≠ [] ∧ ∃ index stream, merger.memoryIndex = some index ∧
      merger.streams[index]? = some stream ∧ files.flatten.flatten = stream.rows
  | .finishMemoryReplacement => True
  | .removeMemory => ∃ index, merger.memoryIndex = some index ∧ index < merger.streams.length ∧ merger.keyAt index = none

def calls (merger : Merger R) : List (MergeCall R) → Except MergeError (Merger R × List R)
  | [] => .ok (merger, [])
  | first :: others => do
    let (merger, rows) ← merger.call less first
    let (merger, more) ← calls merger others
    return (merger, rows ++ more)

def LegalCalls (merger : Merger R) : List (MergeCall R) → Prop
  | [] => True
  | first :: others =>
    merger.Legal first ∧ ∀ merger' rows, merger.call less first = .ok (merger', rows) → LegalCalls merger' others

variable {less merger} {taken : List R}

section Consistent

variable (h : merger.Consistent less taken)
include h

theorem Consistent.replaceMemory {files : List (List (List R))} {hfi : ∀ block ∈ files.flatten, block ≠ []}
    (hl : merger.Legal (.replaceMemory files hfi)) :
    ∃ merger', merger.replaceMemory files hfi = .ok merger' ∧ merger'.Consistent less taken ∧
      merger'.remaining = merger.remaining := by
  obtain ⟨hne, index, stream, hind, hst, hr⟩ := hl
  have hp := h.memory index hind
  have hs : merger.sources = merger.streams := by
    unfold sources
    rw [hp]
  have hli : (merger.streams.set index (ofFiles files hfi)).map MergeStream.rows =
      merger.sources.map MergeStream.rows := by
    have hf : (ofFiles files hfi).rows = stream.rows := by
      rw [ofFiles, loadBatch_rows]
      exact hr
    obtain ⟨hlt, rfl⟩ := List.getElem?_eq_some_iff.mp hst
    rw [hs, map_set, hf, ← map_set, set_getElem_self]
  refine ⟨{ merger with memoryIndex := none, pending := some (index, ofFiles files hfi) }, ?_,
    ⟨?_, ?_, h.bounded, fun _ hm => (by cases hm), fun hn => (by cases hn)⟩, ?_⟩
  · unfold Merger.replaceMemory
    rw [hp, hind, if_neg (by simp)]
    dsimp only
    rw [if_neg hne]
  · intro other ho
    rcases mem_or_eq_of_mem_set ho with hme | rfl
    · exact h.loaded other (hs ▸ hme)
    · exact loadBatch_loaded rfl
  · show Merged less taken (map _ (merger.streams.set index _))
    rw [hli]
    exact h.merged
  · show (map _ (merger.streams.set index _)).flatten = _
    rw [hli]
    rfl

theorem Consistent.finishMemoryReplacement :
    ∃ merger', merger.finishMemoryReplacement = .ok merger' ∧ merger'.Consistent less taken ∧
      merger'.remaining = merger.remaining := by
  unfold Merger.finishMemoryReplacement
  cases hp : merger.pending with
  | none => exact ⟨merger, rfl, h, rfl⟩
  | some replacement =>
    have hs : merger.sources = merger.streams.set replacement.1 replacement.2 := by
      unfold sources
      rw [hp]
    have hl := h.loaded
    have hm := h.merged
    rw [hs] at hl hm
    have hr : merger.remaining = ((merger.streams.set replacement.1 replacement.2).map MergeStream.rows).flatten := by
      rw [remaining, hs]
    rw [hr]
    exact @Consistent.reset R less { merger with streams := merger.streams.set replacement.1 replacement.2, pending := none } taken
      hl hm (by rw [length_set]; exact h.bounded) rfl

theorem Consistent.removeMemory (hleg : merger.Legal .removeMemory) :
    ∃ merger', merger.removeMemory = .ok merger' ∧ merger'.Consistent less taken ∧ merger'.remaining = merger.remaining := by
  obtain ⟨index, hind, hlt, hke⟩ := hleg
  have hp := h.memory index hind
  have hs : merger.sources = merger.streams := by
    unfold sources
    rw [hp]
  have hl := h.loaded
  have hme := h.merged
  rw [hs] at hl hme
  have hem : (merger.streams.get ⟨index, hlt⟩).rows = [] := by
    have hst : merger.streams[index]? = some (merger.streams.get ⟨index, hlt⟩) := getElem?_eq_getElem hlt
    rw [keyAt, hst, Option.bind_some, (hl _ (get_mem ..)).key_eq] at hke
    exact head?_eq_none_iff.mp hke
  have hf : ((merger.streams.eraseIdx index).map MergeStream.rows).flatten = merger.remaining := by
    rw [remaining, hs]
    conv_rhs => rw [← take_append_drop index merger.streams, drop_eq_getElem_cons hlt]
    rw [eraseIdx_eq_take_drop_succ]
    simp only [map_append, map_cons, flatten_append, flatten_cons]
    rw [show (merger.streams[index]).rows = [] from hem, nil_append]
  unfold Merger.removeMemory
  rw [hind]
  dsimp only
  rw [hke, if_neg (by simp), ← hf]
  refine @Consistent.reset R less { merger with streams := merger.streams.eraseIdx index, memoryIndex := none } taken
    (fun stream hm => hl stream (mem_of_mem_eraseIdx hm)) ?_ ?_ hp
  · refine hme.mono fun rows hr => ?_
    obtain ⟨stream, hm, rfl⟩ := mem_map.mp hr
    exact mem_map_of_mem (mem_of_mem_eraseIdx hm)
  · exact (length_eraseIdx_le ..).trans h.bounded

variable (hless : StrictWeakOrder less)
include hless

/-- The collecting loop takes the least rows in order. -/
theorem Consistent.collectLoop {next : Merger R → Except MergeError (ℕ × Merger R)} {Ready : Merger R → Prop}
    (hsel : Selects less next Ready) (hre : Ready merger) (hp : merger.pending = none) {count : ℕ}
    (hco : count ≤ merger.remaining.length)
    (ht : ∀ merger' : Merger R, Ready merger' → 2 < merger'.streams.length → merger'.TreeReady less) :
    ∃ merger' picked, Merger.collectLoop next count merger [] = .ok (merger', picked) ∧ merger'.Consistent less (taken ++ picked) ∧
      (picked ++ merger'.remaining).Perm merger.remaining := by
  have hs losers lastIndex (streams : List (MergeStream R)) :
      sources { merger with losers := losers, lastIndex := lastIndex, streams := streams } = streams := by
    unfold sources
    rw [hp]
  have hse : merger.sources = merger.streams := hs merger.losers merger.lastIndex merger.streams
  have hl := h.loaded
  have hm := h.merged
  unfold remaining at hco ⊢
  rw [hse] at hl hm hco ⊢
  have hf : merger.Fresh [] := fun row hr => by cases hr
  obtain ⟨losers, lastIndex, streams, picked, hlo, hre', hc, hpe, hlen⟩ :=
    collectLoop_spec hless hsel hre ⟨hl, hm⟩ hf hco
  refine ⟨{ merger with losers := losers, lastIndex := lastIndex, streams := streams }, picked, hlo, ⟨?_, ?_, ?_, fun _ _ => hp, fun _ => ht _ hre'⟩, ?_⟩
  · rw [hs]
    exact hc.loaded
  · rw [hs]
    exact hc.merged
  · rw [hlen]
    exact h.bounded
  · rw [hs]
    exact hpe

theorem Consistent.collectRows {count : ℕ} (hl : merger.Legal (.collectRows count)) :
    ∃ merger' picked, merger.collectRows less count = .ok (merger', picked) ∧ merger'.Consistent less (taken ++ picked) ∧
      (picked ++ merger'.remaining).Perm merger.remaining := by
  obtain ⟨hp, hco⟩ := hl
  unfold Merger.collectRows
  by_cases hz : count = 0
  · rw [if_pos hz]
    exact ⟨merger, [], rfl, by rw [append_nil]; exact h, Perm.refl _⟩
  · rw [if_neg hz, if_neg (by simp [hp])]
    by_cases hn : merger.streams.length = 0
    · have hr : merger.remaining = [] := by
        unfold remaining sources
        rw [hp]
        rw [length_eq_zero_iff.mp hn]
        rfl
      rw [hr] at hco
      exact absurd (Nat.le_zero.mp hco) hz
    · rw [if_neg hn]
      by_cases ho : merger.streams.length = 1
      · rw [if_pos ho]
        exact h.collectLoop hless (nextSingleStream_selects hless) ho hp hco (fun _ _ _ => by omega)
      · rw [if_neg ho]
        by_cases ht : merger.streams.length = 2
        · rw [if_pos ht]
          exact h.collectLoop hless (nextTwoWayStream_selects hless) ht hp hco (fun _ _ _ => by omega)
        · rw [if_neg ht]
          exact h.collectLoop hless (nextOfLoserTree_selects hless) (h.tree hp (by omega)) hp hco
            (fun _ hre _ => hre)

/-- Every legal call succeeds and keeps the merger consistent. -/
theorem Consistent.call {request : MergeCall R} (hl : merger.Legal request) :
    ∃ merger' rows, merger.call less request = .ok (merger', rows) ∧ merger'.Consistent less (taken ++ rows) ∧
      (rows ++ merger'.remaining).Perm merger.remaining := by
  cases request
  case collectRows => exact h.collectRows hless hl
  case' replaceMemory => obtain ⟨merger', ho, hco, hr⟩ := h.replaceMemory hl
  case' finishMemoryReplacement => obtain ⟨merger', ho, hco, hr⟩ := h.finishMemoryReplacement
  case' removeMemory => obtain ⟨merger', ho, hco, hr⟩ := h.removeMemory hl
  all_goals
    refine ⟨merger', [], ?_, by rw [append_nil]; exact hco, by rw [nil_append, hr]⟩
    rw [Merger.call, ho]
    rfl

/-- So does every sequence of legal calls. -/
theorem Consistent.calls {reqs : List (MergeCall R)} (hl : merger.LegalCalls less reqs) :
    ∃ merger' rows, merger.calls less reqs = .ok (merger', rows) ∧ merger'.Consistent less (taken ++ rows) ∧
      (rows ++ merger'.remaining).Perm merger.remaining := by
  induction reqs generalizing merger taken with
  | nil => exact ⟨merger, [], rfl, by rw [append_nil]; exact h, .refl _⟩
  | cons request reqs ih =>
    obtain ⟨hf, ho⟩ := hl
    obtain ⟨merger', rows, hcal, hco, hp⟩ := h.call hless hf
    obtain ⟨merger'', more, hca, hco', hp'⟩ := ih hco (ho merger' rows hcal)
    refine ⟨merger'', rows ++ more, ?_, ?_, ?_⟩
    · rw [Merger.calls, hcal]
      simp only [Bind.bind, Except.bind, hca, pure, Except.pure]
    · rw [← append_assoc]
      exact hco'
    · rw [append_assoc]
      exact (hp'.append_left rows).trans hp

end Consistent

def tooManyStreams : List (MergeStream (KeyRecord .keyOnlyFixed8)) := replicate 65536 ⟨true, [], [], 0, by simp⟩

end Merger

end Bolt.RadixSort
