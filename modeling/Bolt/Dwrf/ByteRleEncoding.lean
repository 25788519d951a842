import Bolt.Dwrf.ByteRle
import Mathlib.Algebra.Order.Ring.Int

/-!
# What the byte encoder writes

The encoder's output is a sequence of runs, and the values of the runs it has written
followed by those it holds back are the values it was given, at any point.
-/

namespace Bolt.Dwrf

open Lib Lib.Chunks Lib.Spread List ByteRleEncoder

/-- A run of equal bytes or a stretch of literal ones, of a length its header can tell. -/
inductive ByteRun where
  | repeats (count : ℕ) (value : Byte) (low : minimumRepeat ≤ count) (high : count ≤ maximumRepeat)
  | literals (values : List Byte) (nonempty : values ≠ []) (high : values.length ≤ maxLiteralSize)

namespace ByteRun

def bytes : ByteRun → List Byte
  | .repeats count value _ _ => [header (count - minimumRepeat), value]
  | .literals values _ _ => header (-values.length) :: values

def values : ByteRun → List Byte
  | .repeats count value _ _ => replicate count value
  | .literals values _ _ => values

end ByteRun

theorem toInt_header (count : ℤ) (hl : -128 ≤ count) (hh : count ≤ 127) : (header count).toInt = count := by
  rw [header, BitVec.toInt_ofInt, Int.bmod_def]
  split <;> omega

namespace ByteRleEncoder

variable {e : ByteRleEncoder}

def pending (e : ByteRleEncoder) : List Byte :=
  if e.repeated then replicate e.numLiterals (e.literals 0) else (range e.numLiterals).map e.literals

def view (e : ByteRleEncoder) : List Byte × List Byte := (e.output, e.pending)

/-- A run is shorter than the longest that can be written, and the tail of equal literals
is shorter than a run. -/
structure Valid (e : ByteRleEncoder) : Prop where
  run_low : e.repeated = true → minimumRepeat ≤ e.numLiterals
  run_high : e.repeated = true → e.numLiterals < maximumRepeat
  literals_high : e.repeated = false → e.numLiterals < maxLiteralSize
  tail_lt : e.repeated = false → e.tailRunLength < minimumRepeat
  tail_eq : e.repeated = false → e.tailRunLength = 2 →
    2 ≤ e.numLiterals ∧ e.literals (e.numLiterals - 2) = e.literals (e.numLiterals - 1)

/-- The encoder went on by these values. -/
structure Wrote (e e' : ByteRleEncoder) (added : List Byte) : Prop where
  valid : e'.Valid
  emits : Emits ByteRun.bytes ByteRun.values e.view e'.view added

theorem length_pending (e : ByteRleEncoder) : e.pending.length = e.numLiterals := by
  unfold pending
  split <;> simp

theorem Wrote.trans {e' e'' : ByteRleEncoder} {added added' : List Byte} (h : Wrote e e' added)
    (h' : Wrote e' e'' added') : Wrote e e'' (added ++ added') := ⟨h'.valid, h.emits.trans h'.emits⟩

theorem numLiterals_writeValues (e : ByteRleEncoder) : e.writeValues.numLiterals = 0 := by
  unfold writeValues
  split
  · rfl
  · next h => exact not_not.mp h

theorem pending_writeValues (e : ByteRleEncoder) : e.writeValues.pending = [] :=
  length_eq_zero_iff.mp (by rw [length_pending, numLiterals_writeValues])

/-- A held-back run of a length that can be written is written. -/
theorem emits_writeValues (hlo : e.repeated = true → minimumRepeat ≤ e.numLiterals)
    (hru : e.repeated = true → e.numLiterals ≤ maximumRepeat)
    (hl : e.repeated = false → e.numLiterals ≤ maxLiteralSize) :
    Emits ByteRun.bytes ByteRun.values e.view e.writeValues.view [] := by
  by_cases hn : e.numLiterals = 0
  · rw [writeValues, if_neg (not_not.mpr hn)]
    exact Emits.refl _
  have hv : e.writeValues.view = (e.writeValues.output, []) := by rw [view, pending_writeValues]
  rw [hv, view, writeValues, if_pos hn]
  cases hr : e.repeated with
  | true =>
    have := Emits.write ByteRun.bytes ByteRun.values e.output
      (.repeats e.numLiterals (e.literals 0) (hlo hr) (hru hr)) []
    simpa [pending, hr, ByteRun.values, ByteRun.bytes] using this
  | false =>
    have := Emits.write ByteRun.bytes ByteRun.values e.output
      (.literals ((range e.numLiterals).map e.literals) (by simpa using hn) (by simpa using hl hr)) []
    simpa [pending, hr, ByteRun.values, ByteRun.bytes] using this

theorem valid_writeValues (hn : e.numLiterals ≠ 0) : e.writeValues.Valid := by
  rw [writeValues, if_pos hn]
  constructor <;> simp [maxLiteralSize, minimumRepeat]

theorem Valid.wrote_writeValues (h : e.Valid) : Wrote e e.writeValues [] := by
  refine ⟨?_, emits_writeValues h.run_low (fun hr => (h.run_high hr).le) fun hr => (h.literals_high hr).le⟩
  by_cases hn : e.numLiterals = 0
  · rwa [writeValues, if_neg (not_not.mpr hn)]
  · exact valid_writeValues hn

theorem pending_push (hr : e.repeated = false) (value : Byte) : (e.push value).pending = e.pending ++ [value] := by
  simp only [pending, push, hr, range_succ, map_append, map_singleton, Function.update_self, Bool.false_eq_true, if_false]
  congr 1
  refine map_congr_left fun i hi => Function.update_of_ne ?_ _ _
  exact (mem_range.mp hi).ne

theorem wrote_first (hn : e.numLiterals = 0) (hr : e.repeated = false) (value : Byte) :
    Wrote e { e.push value with tailRunLength := 1 } [value] := by
  refine ⟨by constructor <;> simp [push, hn, hr, maxLiteralSize, minimumRepeat], ?_⟩
  have : ({ e.push value with tailRunLength := 1 } : ByteRleEncoder).view = (e.output, e.pending ++ [value]) := by
    rw [← pending_push hr]
    rfl
  rw [this]
  exact Emits.hold _ _ _

/-- The third equal literal turns the tail into a run: the literals before the tail are
written. -/
theorem Valid.wrote_tail (h : e.Valid) (hr : e.repeated = false) (ht : e.tailRunLength = 2) {value : Byte}
    (hva : value = e.literals (e.numLiterals - 1)) :
    Wrote e (e.writeLiteral value minimumRepeat) [value] := by
  obtain ⟨output, literals, numLiterals, repeated, tail⟩ := e
  obtain rfl : repeated = false := hr
  have hh := h.literals_high rfl
  obtain ⟨hl, heq⟩ := h.tail_eq rfl ht
  obtain ⟨n, rfl⟩ : ∃ n, numLiterals = n + 2 := ⟨numLiterals - 2, by simp only at hl; omega⟩
  replace hva : literals (n + 1) = value := hva.symm
  replace heq : literals n = value := Eq.trans heq hva
  have hp : pending ⟨output, literals, n + 2, false, tail⟩ = (range n).map literals ++ [value, value] := by
    simp [pending, range_succ, hva, heq]
  have hv : view ⟨output, literals, n + 2, false, tail⟩ = (output, (range n).map literals ++ [value, value]) := by
    rw [view, hp]
  rw [writeLiteral]
  simp only [if_pos, minimumRepeat, show n + 2 + 1 > 3 ↔ n ≠ 0 by omega, show n + 2 - (3 - 1) = n by omega]
  refine ⟨by constructor <;> simp [minimumRepeat, maximumRepeat], ?_⟩
  rw [hv]
  by_cases hn : n = 0
  · subst hn
    exact ⟨[], by simp [view], by simp [view, pending, heq, replicate]⟩
  · have hb : ((range n).map literals).length ≤ maxLiteralSize := by
      rw [length_map, length_range]
      exact Nat.le_of_lt (Nat.lt_trans (by omega : n < n + 2) hh)
    refine ⟨[.literals ((range n).map literals) (by simpa using hn) hb], ?_⟩
    simp [view, pending, hn, replicate, writeValues, ByteRun.bytes, ByteRun.values]

/-- A literal that does not make a run is held back. -/
theorem Valid.wrote_literal (h : e.Valid) (hr : e.repeated = false) (value : Byte) {tail : ℕ}
    (ht : tail < minimumRepeat) (heq : tail = 2 → 0 < e.numLiterals ∧ value = e.literals (e.numLiterals - 1)) :
    Wrote e (e.writeLiteral value tail) [value] := by
  obtain ⟨e', he'⟩ : ∃ e', e' = { e with tailRunLength := tail }.push value := ⟨_, rfl⟩
  have hr' : e'.repeated = false := by rw [he']; exact hr
  have hh : Emits ByteRun.bytes ByteRun.values e.view e'.view [value] := by
    have : e'.view = (e.output, e.pending ++ [value]) := by
      rw [← pending_push hr, he']
      rfl
    rw [this]
    exact Emits.hold _ _ _
  rw [writeLiteral, if_neg ht.ne, ← he']
  dsimp only
  split
  · next hm =>
    refine ⟨valid_writeValues (by rw [hm]; decide), ?_⟩
    exact hh.trans (emits_writeValues (by simp [hr']) (by simp [hr']) fun _ => hm.le)
  · next hm =>
    have hhi := h.literals_high hr
    refine ⟨⟨by simp [hr'], by simp [hr'], fun _ => ?_, fun _ => by rw [he']; exact ht, fun _ htw => ?_⟩, hh⟩
    · rw [he'] at hm ⊢
      simp only [push] at hm ⊢
      omega
    · rw [he'] at htw
      obtain ⟨hp, hl⟩ := heq htw
      rw [he']
      simp only [push]
      refine ⟨by omega, ?_⟩
      rw [show e.numLiterals + 1 - 1 = e.numLiterals by omega, Function.update_self,
        Function.update_of_ne (by omega), hl]
      rfl

theorem Valid.wrote_repeat (h : e.Valid) (hr : e.repeated = true) {value : Byte} (hv : value = e.literals 0) :
    Wrote e (if e.numLiterals + 1 = maximumRepeat then { e with numLiterals := e.numLiterals + 1 }.writeValues
      else { e with numLiterals := e.numLiterals + 1 }) [value] := by
  have hl := h.run_low hr
  have hhi := h.run_high hr
  obtain ⟨e', he'⟩ : ∃ e', e' = { e with numLiterals := e.numLiterals + 1 } := ⟨_, rfl⟩
  have hr' : e'.repeated = true := by rw [he']; exact hr
  have hn' : e'.numLiterals = e.numLiterals + 1 := by rw [he']
  have hh : Emits ByteRun.bytes ByteRun.values e.view e'.view [value] := by
    have : e'.view = (e.output, e.pending ++ [value]) := by
      simp [he', view, pending, hr, hv, replicate_succ']
    rw [this]
    exact Emits.hold _ _ _
  rw [← he']
  split
  · next hm =>
    refine ⟨valid_writeValues (by omega), ?_⟩
    exact hh.trans (emits_writeValues (fun _ => by omega) (fun _ => by omega) (by simp [hr']))
  · exact ⟨⟨fun _ => by omega, fun _ => by omega, by simp [hr'], by simp [hr'], by simp [hr']⟩, hh⟩

/-- `write` adds one value, whichever run it extends, ends or begins. -/
theorem Valid.wrote_write (h : e.Valid) (value : Byte) : Wrote e (e.write value) [value] := by
  rw [write]
  rcases Bool.eq_false_or_eq_true e.repeated with hr | hr
  · have hl := h.run_low hr
    have hn : e.numLiterals ≠ 0 := by simp only [minimumRepeat] at hl; omega
    rw [if_neg hn, if_pos hr]
    split
    · next hv => exact h.wrote_repeat hr hv
    · have hf := wrote_first (numLiterals_writeValues e) (by rw [writeValues, if_pos hn]) value
      exact h.wrote_writeValues.trans hf
  · by_cases hn : e.numLiterals = 0
    · rw [if_pos hn]
      exact wrote_first hn hr value
    · have hta := h.tail_lt hr
      rw [if_neg hn, if_neg (by simp [hr])]
      split_ifs with hv
      · by_cases ht : e.tailRunLength = 2
        · rw [ht]
          exact h.wrote_tail hr ht hv
        · exact h.wrote_literal hr value (by simp only [minimumRepeat] at hta ⊢; omega)
            fun _ => ⟨by omega, hv⟩
      · exact h.wrote_literal hr value (by decide) (by omega)

theorem valid_empty : ({} : ByteRleEncoder).Valid := by
  constructor <;> simp [minimumRepeat, maxLiteralSize]

def addedValues {α : Type} (valueAt : ℕ → α) (ranges : List ℕ) (nulls : Option (ℕ → Bool)) : List α :=
  (ranges.filter fun position => nulls.elim true (· position)).map valueAt

/-- `add` adds the values of its ranges that are not null. -/
theorem Valid.wrote_add (valueAt : ℕ → Byte) (nulls : Option (ℕ → Bool)) (ranges : List ℕ) :
    ∀ {e : ByteRleEncoder}, e.Valid → Wrote e (e.add valueAt ranges nulls) (addedValues valueAt ranges nulls) := by
  induction ranges with
  | nil => intro e h; cases nulls <;> exact ⟨h, Emits.refl _⟩
  | cons position ranges ih =>
    intro e h
    have hw := h.wrote_write (valueAt position)
    cases nulls with
    | none => exact hw.trans (ih hw.valid)
    | some present =>
      cases hp : present position with
      | false => simpa [add, addedValues, hp] using ih h
      | true => simpa [add, addedValues, hp] using hw.trans (ih hw.valid)

end ByteRleEncoder

end Bolt.Dwrf
