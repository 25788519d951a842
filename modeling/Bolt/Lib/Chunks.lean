import Mathlib.Data.List.Basic

/-!
# Reading an input that comes in chunks

An input hands out its elements in nonempty chunks, one of which is being read. What is
still to come does not depend on where one chunk ends and the next begins: reading one
element, reading many and skipping are the list operations on it.
-/

namespace Bolt.Lib.Chunks

open List

variable {α : Type}

/-- The unread part of the current chunk and the chunks after it. -/
structure Source (α : Type) where
  buffer : List α
  chunks : List (List α)
  nonempty : ∀ chunk ∈ chunks, chunk ≠ []

/-- An input that can be positioned anywhere, with chunks of its own choosing. -/
structure Seekable (elements : List α) where
  chunksFrom : ℕ → List (List α)
  nonempty : ∀ offset, ∀ chunk ∈ chunksFrom offset, chunk ≠ []
  flatten_eq : ∀ offset, (chunksFrom offset).flatten = elements.drop offset

def Seekable.seek {elements : List α} (input : Seekable elements) (offset : ℕ) : Source α :=
  ⟨[], input.chunksFrom offset, input.nonempty offset⟩

/-- An input that is one chunk from any offset on. -/
def Seekable.whole (elements : List α) : Seekable elements where
  chunksFrom offset := if elements.drop offset = [] then [] else [elements.drop offset]
  nonempty := by
    intro offset chunk hchunk
    split at hchunk
    · cases hchunk
    · next hne => rwa [mem_singleton.mp hchunk]
  flatten_eq := by
    intro offset
    split
    · next h => rw [h, flatten_nil]
    · rw [flatten_singleton]

namespace Source

def rest (s : Source α) : List α := s.buffer ++ s.chunks.flatten

def nextBuffer : Source α → Option (Source α)
  | ⟨_, [], _⟩ => none
  | ⟨_, chunk :: chunks, h⟩ => some ⟨chunk, chunks, fun c hc => h c (mem_cons_of_mem _ hc)⟩

def filled (s : Source α) : Option (Source α) :=
  if s.buffer.isEmpty then s.nextBuffer else some s

def read (s : Source α) : Option (α × Source α) := do
  let s ← s.filled
  let a ← s.buffer.head?
  return (a, { s with buffer := s.buffer.tail })

/-- Reads elements chunk by chunk, with a bound on the number of chunks. -/
def readMany : ℕ → ℕ → Source α → Option (List α × Source α)
  | _, 0, s => some ([], s)
  | 0, _ + 1, _ => none
  | fuel + 1, count + 1, s => do
    let s ← s.filled
    let copied := s.buffer.take (count + 1)
    let (others, s) ← readMany fuel (count + 1 - copied.length) { s with buffer := s.buffer.drop (count + 1) }
    return (copied ++ others, s)

/-- The chunks after some elements were skipped. -/
def dropChunks : ℕ → (chunks : List (List α)) → List (List α)
  | 0, chunks => chunks
  | _ + 1, [] => []
  | count + 1, chunk :: chunks =>
    if count + 1 < chunk.length then chunk.drop (count + 1) :: chunks else dropChunks (count + 1 - chunk.length) chunks

theorem dropChunks_nonempty (chunks : List (List α)) :
    ∀ count, (∀ chunk ∈ chunks, chunk ≠ []) → ∀ chunk ∈ dropChunks count chunks, chunk ≠ [] := by
  induction chunks with
  | nil => intro count h; cases count <;> simp [dropChunks]
  | cons first chunks ih =>
    intro count h
    cases count with
    | zero => exact h
    | succ count =>
      rw [dropChunks]
      split
      · next hlt =>
        intro chunk hm
        rcases mem_cons.mp hm with rfl | hm
        · simp only [ne_eq, drop_eq_nil_iff]; omega
        · exact h chunk (mem_cons_of_mem _ hm)
      · exact ih _ fun c hc => h c (mem_cons_of_mem _ hc)

theorem flatten_dropChunks (chunks : List (List α)) :
    ∀ count, (dropChunks count chunks).flatten = chunks.flatten.drop count := by
  induction chunks with
  | nil => intro count; cases count <;> simp [dropChunks]
  | cons first chunks ih =>
    intro count
    cases count with
    | zero => rfl
    | succ count =>
      rw [dropChunks, flatten_cons, drop_append]
      split
      · next hlt => rw [flatten_cons, show count + 1 - first.length = 0 by omega, drop_zero]
      · next hge => rw [ih, drop_eq_nil_of_le (by omega : first.length ≤ count + 1), nil_append]

/-- Skips elements: first in the current chunk, then in the input. -/
def skip (s : Source α) (count : ℕ) : Source α where
  buffer := s.buffer.drop count
  chunks := dropChunks (count - s.buffer.length) s.chunks
  nonempty := dropChunks_nonempty _ _ s.nonempty

theorem rest_skip (s : Source α) (count : ℕ) : (s.skip count).rest = s.rest.drop count := by
  rw [rest, rest, skip, flatten_dropChunks, drop_append]

theorem rest_seek {elems : List α} (input : Seekable elems) (offset : ℕ) :
    (input.seek offset).rest = elems.drop offset := by
  rw [rest, Seekable.seek, input.flatten_eq, nil_append]

/-- Where something is to be read, a chunk with an element in it is found. -/
theorem filled_eq {s : Source α} (h : s.rest ≠ []) : ∃ s', s.filled = some s' ∧ s'.rest = s.rest ∧ s'.buffer ≠ [] := by
  obtain ⟨buffer, chunks, hne⟩ := s
  cases buffer with
  | cons a buffer => exact ⟨⟨a :: buffer, chunks, hne⟩, rfl, rfl, cons_ne_nil a buffer⟩
  | nil =>
    cases chunks with
    | nil => exact absurd rfl h
    | cons chunk chunks => exact ⟨_, rfl, rfl, hne chunk mem_cons_self⟩

theorem read_eq {s : Source α} {a : α} {text : List α} (h : s.rest = a :: text) :
    ∃ s', s.read = some (a, s') ∧ s'.rest = text := by
  obtain ⟨⟨buffer, chunks, hne⟩, hs, hr, hbuffer⟩ := filled_eq (h ▸ cons_ne_nil a text)
  cases buffer with
  | nil => exact absurd rfl hbuffer
  | cons b buffer =>
    rw [h, rest, cons_append, cons.injEq] at hr
    obtain ⟨rfl, hr⟩ := hr
    exact ⟨⟨buffer, chunks, hne⟩, by rw [read, hs]; rfl, hr⟩

theorem readMany_eq {text : List α} (fuel : ℕ) : ∀ (elems : List α) (s : Source α), s.rest = elems ++ text →
    elems.length ≤ fuel → ∃ s', s.readMany fuel elems.length = some (elems, s') ∧ s'.rest = text := by
  induction fuel with
  | zero =>
    intro elems s h hf
    obtain rfl := length_eq_zero_iff.mp (Nat.le_zero.mp hf)
    exact ⟨s, rfl, h⟩
  | succ fuel ih =>
    intro elems s h hf
    cases elems with
    | nil => exact ⟨s, rfl, h⟩
    | cons a elems =>
      obtain ⟨s', hs, hr, hbuffer⟩ := filled_eq (s := s) (h ▸ cons_ne_nil a _)
      have hp := length_pos_iff.mpr hbuffer
      rw [h, rest] at hr
      -- What the chunk holds is a part of what is asked for, or reaches beyond it.
      have hta : s'.buffer.take (elems.length + 1) = (a :: elems).take s'.buffer.length := by
        have := congrArg (take (min s'.buffer.length (elems.length + 1))) hr
        grind
      have hd : ({ s' with buffer := s'.buffer.drop (elems.length + 1) } : Source α).rest =
          (a :: elems).drop s'.buffer.length ++ text := by
        have := congrArg (drop (min s'.buffer.length (elems.length + 1))) hr
        simp only [rest]
        grind
      have hl : elems.length + 1 - (s'.buffer.take (elems.length + 1)).length =
          ((a :: elems).drop s'.buffer.length).length := by
        simp only [length_take, length_drop, length_cons]
        omega
      obtain ⟨t, ht, hen⟩ := ih _ _ hd (by simp only [length_drop, length_cons] at hf ⊢; omega)
      refine ⟨t, ?_, hen⟩
      rw [length_cons, readMany, hs]
      simp only [Option.bind_eq_bind, Option.bind_some]
      rw [hl, ht, hta, Option.bind_some, take_append_drop]
      rfl

end Source

end Bolt.Lib.Chunks
