import Mathlib.Data.List.Basic
import Mathlib.Data.List.Flatten

/-!
# Segmented storage

A sequence kept in blocks of one capacity, all full but the last, which grows at its
end. Whatever is known of the blocks is stated through the sequence they hold.
-/

namespace Bolt.Lib

open List

variable {α : Type}

/-- Blocks of `capacity` elements and a last block that may have room. -/
structure Segments (α : Type) (capacity : ℕ) where
  full : List (List α)
  last : List α
  full_length : ∀ block ∈ full, block.length = capacity
  last_length : last.length ≤ capacity

namespace Segments

variable {capacity : ℕ}

def empty : Segments α capacity := ⟨[], [], by simp, by simp⟩

def toList (s : Segments α capacity) : List α := s.full.flatten ++ s.last

variable (s : Segments α capacity)

theorem length_toList : s.toList.length = s.full.length * capacity + s.last.length := by
  have hf : s.full.map length = replicate s.full.length capacity :=
    eq_replicate_iff.mpr ⟨length_map _, fun n hn => by
      obtain ⟨block, hb, rfl⟩ := mem_map.mp hn
      exact s.full_length block hb⟩
  rw [toList, length_append, length_flatten, hf, sum_replicate_nat]

def ensureBlock (s : Segments α capacity) : Segments α capacity :=
  if h : s.last.length = capacity then
    { full := s.full ++ [s.last]
      last := []
      full_length := by
        intro block hblock
        rcases mem_append.mp hblock with hfull | hlast
        · exact s.full_length block hfull
        · rw [mem_singleton.mp hlast, h]
      last_length := Nat.zero_le _ }
  else s

theorem ensureBlock_toList : s.ensureBlock.toList = s.toList := by
  unfold ensureBlock
  split <;> simp [toList]

theorem ensureBlock_room (hc : 0 < capacity) (s : Segments α capacity) : s.ensureBlock.last.length < capacity := by
  unfold ensureBlock
  split
  · exact hc
  · have := s.last_length
    omega

def fillLast (s : Segments α capacity) (added : List α) (h : s.last.length + added.length ≤ capacity) :
    Segments α capacity :=
  { s with last := s.last ++ added, last_length := by rwa [length_append] }

/-- Fills up the last segment and goes on in new ones. -/
def append (hcapacity : 0 < capacity) (s : Segments α capacity) (added : List α) : Segments α capacity :=
  if hadded : added = [] then s
  else
    let count := min (capacity - s.ensureBlock.last.length) added.length
    append hcapacity
      (s.ensureBlock.fillLast (added.take count) (by
        have hroom := s.ensureBlock_room hcapacity
        rw [length_take]
        omega))
      (added.drop count)
termination_by added.length
decreasing_by
  have hroom := s.ensureBlock_room hcapacity
  have hpos := length_pos_iff.mpr hadded
  rw [length_drop]
  omega

theorem append_toList (hc : 0 < capacity) (s : Segments α capacity) (added : List α) :
    (s.append hc added).toList = s.toList ++ added := by
  fun_induction append hc s added with
  | case1 s => simp
  | case2 s added hadded count ih =>
    have hf : ∀ h, (s.ensureBlock.fillLast (added.take count) h).toList = s.toList ++ added.take count := by
      intro h
      rw [← ensureBlock_toList s]
      exact (append_assoc _ _ _).symm
    rw [ih, hf, append_assoc, take_append_drop]

/-! ## Access by position -/

def refill (s : Segments α capacity) (contents : List α) (h : contents.length = s.toList.length) :
    Segments α capacity where
  full := (range s.full.length).map fun i => (contents.drop (i * capacity)).take capacity
  last := contents.drop (s.full.length * capacity)
  full_length := by
    intro block hblock
    obtain ⟨i, hi, rfl⟩ := mem_map.mp hblock
    have hi := mem_range.mp hi
    have hlength := length_toList s
    have hroom : (i + 1) * capacity ≤ s.full.length * capacity := Nat.mul_le_mul_right _ hi
    rw [Nat.add_mul] at hroom
    rw [length_take, length_drop]
    omega
  last_length := by
    have hlength := length_toList s
    have hlast := s.last_length
    rw [length_drop]
    omega

theorem refill_toList (contents : List α) (h : contents.length = s.toList.length) :
    (s.refill contents h).toList = contents := by
  have hf : ∀ n, ((range n).map fun i => (contents.drop (i * capacity)).take capacity).flatten =
      contents.take (n * capacity) := by
    intro n
    induction n with
    | zero => simp
    | succ n ih =>
      rw [range_succ, map_append, flatten_append, ih, map_singleton, flatten_singleton, Nat.succ_mul, take_add]
  rw [toList, refill, hf, take_append_drop]

end Segments

end Bolt.Lib
