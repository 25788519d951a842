import Bolt.Dwrf.ByteRleEncoding
import Mathlib.Data.List.GetD

/-!
# What the byte decoder reads

Reading a header moves to the next run and changes nothing ahead; passing over values and
reading them, with or without nulls, takes them off the front.
-/

namespace Bolt.Dwrf

open Lib Lib.Chunks Lib.Spread List

def presentIn (nulls : Option (ℕ → Bool)) : ℕ → Bool := nulls.getD fun _ => true

namespace ByteRleDecoder

def Holds (d : ByteRleDecoder) (current text : List Byte) : Prop :=
  if d.repeating then current = replicate d.remainingValues d.value ∧ d.input.rest = text
  else current.length = d.remainingValues ∧ d.input.rest = current ++ text

def Ahead (d : ByteRleDecoder) (values : List Byte) : Prop :=
  ∃ (current : List Byte) (runs : List ByteRun),
    d.Holds current (runs.flatMap ByteRun.bytes) ∧ values = current ++ runs.flatMap ByteRun.values

variable {d : ByteRleDecoder} {current text values : List Byte}

theorem Holds.length_eq (h : d.Holds current text) : current.length = d.remainingValues := by
  unfold Holds at h
  split at h
  · rw [h.1, length_replicate]
  · exact h.1

theorem readHeader_eq {run : ByteRun} (h : d.input.rest = run.bytes ++ text) :
    ∃ d', d.readHeader = some d' ∧ d'.Holds run.values text ∧ d'.pendingSkip = d.pendingSkip := by
  cases run with
  | repeats count value low high =>
    simp only [minimumRepeat, maximumRepeat] at low high
    obtain ⟨s, hs, hr⟩ := Source.read_eq h
    obtain ⟨t, ht, hte⟩ := Source.read_eq hr
    have hc := toInt_header (count - minimumRepeat) (by simp [minimumRepeat]; omega)
      (by simp [minimumRepeat]; omega)
    have hco : ((count : ℤ) - minimumRepeat).toNat + minimumRepeat = count := by simp only [minimumRepeat]; omega
    refine ⟨{ d with input := t, value, remainingValues := count, repeating := true }, ?_, ⟨rfl, hte⟩, rfl⟩
    rw [readHeader, hs]
    simp only [Option.bind_eq_bind, Option.bind_some, hc]
    rw [if_neg (by simp only [minimumRepeat]; omega), ht, Option.bind_some, hco]
    rfl
  | literals literals nonempty high =>
    simp only [maxLiteralSize] at high
    have hp := length_pos_iff.mpr nonempty
    obtain ⟨s, hs, hr⟩ := Source.read_eq h
    have hc := toInt_header (-literals.length) (by omega) (by omega)
    refine ⟨{ d with input := s, remainingValues := literals.length, repeating := false }, ?_, ⟨rfl, hr⟩, rfl⟩
    rw [readHeader, hs]
    simp only [Option.bind_eq_bind, Option.bind_some, hc]
    rw [if_pos (by omega), neg_neg, Int.toNat_natCast]
    rfl

/-- Where values are ahead, the decoder finds a run with values left. -/
theorem Ahead.ready (h : d.Ahead values) (hne : values ≠ []) :
    ∃ d', d.ready = some d' ∧ 0 < d'.remainingValues ∧ d'.Ahead values ∧ d'.pendingSkip = d.pendingSkip := by
  obtain ⟨current, runs, hh, rfl⟩ := h
  by_cases hz : d.remainingValues = 0
  · obtain rfl := length_eq_zero_iff.mp (hh.length_eq.trans hz)
    cases runs with
    | nil => exact absurd rfl hne
    | cons run runs =>
      have hr : d.input.rest = run.bytes ++ runs.flatMap ByteRun.bytes := by
        unfold Holds at hh
        split at hh <;> simpa using hh.2
      obtain ⟨d', hd', hn, hp⟩ := readHeader_eq hr
      refine ⟨d', by rw [ByteRleDecoder.ready, if_pos hz, hd'], ?_, ⟨run.values, runs, hn, rfl⟩, hp⟩
      rw [← hn.length_eq]
      cases run with
      | repeats count value low high => exact length_replicate ▸ Nat.lt_of_lt_of_le (by decide) low
      | literals literals nonempty high => exact length_pos_iff.mpr nonempty
  · exact ⟨d, by rw [ByteRleDecoder.ready, if_neg hz], by omega, ⟨current, runs, hh, rfl⟩, rfl⟩

theorem Holds.drop (h : d.Holds current text) (count : ℕ) (input : Source Byte)
    (hinp : if d.repeating then input = d.input else input.rest = current.drop count ++ text) :
    ({ d with input, remainingValues := d.remainingValues - count } : ByteRleDecoder).Holds (current.drop count) text := by
  unfold Holds at h ⊢
  split
  · next hr =>
    rw [if_pos hr] at h hinp
    exact ⟨by rw [h.1, drop_replicate], by rw [hinp, h.2]⟩
  · next hr =>
    rw [if_neg hr] at h hinp
    exact ⟨by rw [length_drop, h.1], hinp⟩

theorem Ahead.of_drop {runs : List ByteRun} {count : ℕ} (hc : count ≤ current.length)
    (h : d.Holds (current.drop count) (runs.flatMap ByteRun.bytes)) :
    d.Ahead ((current ++ runs.flatMap ByteRun.values).drop count) :=
  ⟨_, runs, h, drop_append_of_le_length hc⟩

theorem Ahead.pass (h : d.Ahead values) (count : ℕ) (hc : count ≤ d.remainingValues) :
    (d.pass count).Ahead (values.drop count) := by
  obtain ⟨current, runs, hh, rfl⟩ := h
  refine Ahead.of_drop (hh.length_eq ▸ hc) (hh.drop _ _ ?_)
  split
  · rfl
  · next hr =>
    rw [Holds, if_neg hr] at hh
    rw [Source.rest_skip, hh.2, drop_append_of_le_length (hh.1 ▸ hc)]

theorem skipValues_eq (fuel : ℕ) : ∀ (num : ℕ) {d : ByteRleDecoder} {values : List Byte}, d.Ahead values →
    num ≤ values.length → num ≤ fuel →
    ∃ d', skipValues fuel num d = some d' ∧ d'.Ahead (values.drop num) ∧ d'.pendingSkip = d.pendingSkip := by
  induction fuel with
  | zero =>
    intro num d values h _ hf
    obtain rfl := Nat.le_zero.mp hf
    exact ⟨d, rfl, h, rfl⟩
  | succ fuel ih =>
    intro num d values h hl hf
    cases num with
    | zero => exact ⟨d, rfl, h, rfl⟩
    | succ num =>
      obtain ⟨d', hd', hpo, ha, hp⟩ := h.ready (by rintro rfl; simp at hl)
      obtain ⟨count, hc⟩ : ∃ count, count = min (num + 1) d'.remainingValues := ⟨_, rfl⟩
      obtain ⟨d'', hd'', ha', hp'⟩ := ih (num + 1 - count) (ha.pass count (by omega))
        (by rw [length_drop]; omega) (by omega)
      refine ⟨d'', ?_, ?_, hp'.trans hp⟩
      · rw [skipValues, hd']
        simp only [Option.bind_eq_bind, Option.bind_some, ← hc]
        exact hd''
      · rw [drop_drop, show count + (num + 1 - count) = num + 1 by omega] at ha'
        exact ha'

/-- Where the decoder is, with what it has yet to skip. -/
def At (d : ByteRleDecoder) (values : List Byte) : Prop :=
  ∃ all, d.Ahead all ∧ d.pendingSkip ≤ all.length ∧ values = all.drop d.pendingSkip

theorem At.skip (h : d.At values) {num : ℕ} (hl : num ≤ values.length) :
    (d.skip num).At (values.drop num) := by
  obtain ⟨all, ha, hle, rfl⟩ := h
  rw [length_drop] at hl
  exact ⟨all, ha, by simp only [ByteRleDecoder.skip]; omega, drop_drop⟩

theorem At.skipPending (h : d.At values) : ∃ d', d.skipPending = some d' ∧ d'.Ahead values ∧ d'.pendingSkip = 0 := by
  obtain ⟨all, ha, hle, rfl⟩ := h
  exact skipValues_eq _ _ ha hle le_rfl

/-- Positions of a run with nulls. The reader takes the values of `current` one by one;
`Reads` says what is left of them behind a source. -/
theorem scatterRun_eq (read : Source Byte → Option (Byte × Source Byte)) {present : ℕ → Bool} {value : ℕ → Byte}
    {data : ℕ → Byte} (Reads : List Byte → Source Byte → Prop)
    (hrea : ∀ {a l s}, Reads (a :: l) s → ∃ s', read s = some (a, s') ∧ Reads l s') (count : ℕ) :
    ∀ (position consumed : ℕ) {current input}, Reads current input → count ≤ current.length →
      (∀ k < current.length, value (rank present position + k) = current.getD k 0) →
      ∃ k input', scatterRun read present count position input (spread present value position data) consumed =
          some (input', spread present value (position + count) data, consumed + k) ∧
        rank present (position + count) = rank present position + k ∧ k ≤ count ∧ Reads (current.drop k) input' := by
  induction count with
  | zero => intro position consumed current input h _ _; exact ⟨0, input, rfl, rfl, le_rfl, h⟩
  | succ count ih =>
    intro position consumed current input h hl hv
    cases hp : present position with
    | false =>
      obtain ⟨k, input', hk, hr, hle, hre⟩ := ih (position + 1) consumed h (by omega)
        (by simpa [rank_succ, hp] using hv)
      refine ⟨k, input', ?_, ?_, by omega, hre⟩
      · rw [scatterRun, hp, if_neg Bool.false_ne_true, ← spread_absent hp, hk, Nat.add_right_comm, Nat.add_assoc]
      · rw [← Nat.add_assoc, Nat.add_right_comm, hr, rank_succ, hp]
        rfl
    | true =>
      obtain ⟨a, l, rfl⟩ := exists_cons_of_length_pos (by omega : 0 < current.length)
      obtain ⟨s, hs, hre⟩ := hrea h
      rw [length_cons] at hl hv
      have hn : rank present (position + 1) = rank present position + 1 := by rw [rank_succ, hp]; rfl
      obtain ⟨k, input', hk, hr, hle, hen⟩ := ih (position + 1) (consumed + 1) hre (by omega)
        (fun k hk => by simpa [hn, Nat.add_assoc, Nat.add_comm 1] using hv (k + 1) (by omega))
      have ha : a = value (rank present position) := by simpa using (hv 0 (by omega)).symm
      refine ⟨k + 1, input', ?_, ?_, by omega, hen⟩
      · rw [scatterRun, if_pos hp, hs]
        simp only [Option.bind_eq_bind, Option.bind_some]
        rw [ha, spread_present hp, hk, Nat.add_right_comm, Nat.add_assoc, Nat.add_right_comm consumed, Nat.add_assoc consumed]
      · rw [← Nat.add_assoc, Nat.add_right_comm, hr, hn, Nat.add_right_comm, Nat.add_assoc]

theorem spread_stretch {value data : ℕ → Byte} {position count : ℕ} (hc : count ≤ current.length)
    (hv : ∀ k < current.length, value (position + k) = current.getD k 0) :
    place (spread (fun _ => true) value position data) position (current.take count) =
      spread (fun _ => true) value (position + count) data := by
  funext i
  simp only [place, spread, and_true, rank_all, length_take, Nat.min_eq_left hc]
  by_cases hin : position ≤ i ∧ i < position + count
  · have hi := hv (i - position) (by omega)
    rw [show position + (i - position) = i by omega] at hi
    rw [if_pos hin, if_pos hin.2, hi, getD_eq_getElem?_getD, getD_eq_getElem?_getD, getElem?_take_of_lt (by omega)]
  · grind

theorem fill_eq_place (data : ℕ → Byte) (position count : ℕ) (value : Byte) :
    fill data position count value = place data position (replicate count value) := by
  funext i
  simp only [fill, place, length_replicate]
  by_cases hin : position ≤ i ∧ i < position + count
  · rw [if_pos hin, if_pos hin, getD_replicate _ (by omega)]
  · rw [if_neg hin, if_neg hin]

/-- The positions of a run, with or without nulls. -/
theorem Holds.readRun (h : d.Holds current text) (nulls : Option (ℕ → Bool)) (value data : ℕ → Byte) {position count : ℕ}
    (hco : count ≤ d.remainingValues)
    (hv : ∀ k < current.length, value (rank (presentIn nulls) position + k) = current.getD k 0) :
    ∃ k input, d.readRun nulls (spread (presentIn nulls) value position data) position count =
        some (input, spread (presentIn nulls) value (position + count) data, k) ∧
      rank (presentIn nulls) (position + count) = rank (presentIn nulls) position + k ∧ k ≤ count ∧
      ({ d with input, remainingValues := d.remainingValues - k } : ByteRleDecoder).Holds (current.drop k) text := by
  have hlen := h.length_eq
  have hd := h.drop
  simp only [ByteRleDecoder.readRun]
  unfold Holds at h
  split at h
  · next hr =>
    obtain ⟨hc, -⟩ := h
    simp only [if_pos hr] at hd
    rw [if_pos hr]
    cases nulls with
    | some present =>
      obtain ⟨k, input, hk, hra, hle, -, hen⟩ := scatterRun_eq (fun input => some (d.value, input))
        (fun l s => l = replicate l.length d.value ∧ s = d.input)
        (by
          rintro a l s ⟨hl, rfl⟩
          rw [length_cons, replicate_succ, cons.injEq] at hl
          exact ⟨_, by rw [hl.1], hl.2, rfl⟩)
        count position 0 ⟨by rw [hlen]; exact hc, rfl⟩ (by omega) hv
      exact ⟨k, input, by simpa [presentIn] using hk, hra, hle, hd k input hen⟩
    | none =>
      simp only [presentIn, Option.getD_none, rank_all] at hv ⊢
      refine ⟨count, d.input, ?_, rfl, le_rfl, hd count _ rfl⟩
      rw [← spread_stretch (by omega) hv, fill_eq_place, hc, take_replicate, Nat.min_eq_left hco]
  · next hr =>
    obtain ⟨-, hre⟩ := h
    simp only [if_neg hr] at hd
    rw [if_neg hr]
    cases nulls with
    | some present =>
      obtain ⟨k, input, hk, hra, hle, hen⟩ := scatterRun_eq Source.read
        (fun l s => s.rest = l ++ text) (fun hs => Source.read_eq hs) count position 0 hre (by omega) hv
      exact ⟨k, input, by simpa [presentIn] using hk, hra, hle, hd k input hen⟩
    | none =>
      simp only [presentIn, Option.getD_none, rank_all] at hv ⊢
      have hsp : d.input.rest = current.take count ++ (current.drop count ++ text) := by
        rw [hre, ← append_assoc, take_append_drop]
      have ht : (current.take count).length = count := by rw [length_take]; omega
      obtain ⟨input, hinp, hen⟩ := Source.readMany_eq count _ _ hsp ht.le
      rw [ht] at hinp
      refine ⟨count, input, ?_, rfl, le_rfl, hd count input hen⟩
      simp only [hinp, Option.bind_eq_bind, Option.bind_some]
      rw [spread_stretch (by omega) hv]
      rfl

theorem skipNulls_spec (nulls : Option (ℕ → Bool)) (num fuel : ℕ) : ∀ position, position ≤ num →
    num ≤ position + fuel → ∃ position', skipNulls nulls num fuel position = position' ∧
      position ≤ position' ∧ position' ≤ num ∧ rank (presentIn nulls) position' = rank (presentIn nulls) position ∧
      (position' < num → presentIn nulls position' = true) ∧
      ∀ (value data : ℕ → Byte), spread (presentIn nulls) value position' data = spread (presentIn nulls) value position data := by
  induction fuel with
  | zero => intro position hle hf; exact ⟨position, rfl, le_rfl, hle, rfl, by omega, fun _ _ => rfl⟩
  | succ fuel ih =>
    intro position hle hf
    cases nulls with
    | none => exact ⟨position, rfl, le_rfl, hle, rfl, fun _ => rfl, fun _ _ => rfl⟩
    | some present =>
      by_cases hp : position < num ∧ present position = false
      · obtain ⟨position', hs, hge, hle', hr, hpr, hspread⟩ := ih (position + 1) (by omega) (by omega)
        refine ⟨position', by rw [skipNulls, if_pos hp, hs], by omega, hle', ?_, hpr, fun value data => ?_⟩
        · rw [hr, rank_succ, show presentIn (some present) position = false from hp.2]
          rfl
        · rw [hspread, spread_absent (show presentIn (some present) position = false from hp.2)]
      · refine ⟨position, by rw [skipNulls, if_neg hp], le_rfl, hle, rfl, fun hlt => ?_, fun _ _ => rfl⟩
        exact (Bool.not_eq_false _).mp fun h => hp ⟨hlt, h⟩

theorem readValues_eq (nulls : Option (ℕ → Bool)) {numValues : ℕ} (data : ℕ → Byte)
    (hl : rank (presentIn nulls) numValues ≤ values.length) (fuel : ℕ) : ∀ {position : ℕ} {d : ByteRleDecoder},
    position ≤ numValues → numValues ≤ position + fuel → (position < numValues → presentIn nulls position = true) →
    d.Ahead (values.drop (rank (presentIn nulls) position)) →
    ∃ d', readValues nulls numValues fuel position d (spread (presentIn nulls) (values.getD · 0) position data) =
        some (d', spread (presentIn nulls) (values.getD · 0) numValues data) ∧
      d'.Ahead (values.drop (rank (presentIn nulls) numValues)) ∧ d'.pendingSkip = d.pendingSkip := by
  induction fuel with
  | zero =>
    intro position d hle hf _ h
    obtain rfl : position = numValues := by omega
    exact ⟨d, by rw [readValues, if_neg (lt_irrefl _)], h, rfl⟩
  | succ fuel ih =>
    intro position d hle hf hpr h
    by_cases hlt : position < numValues
    · have hra := rank_lt (presentIn nulls) hlt (hpr hlt)
      obtain ⟨d', hd', hpo, ha, hp⟩ := h.ready (by rw [ne_eq, drop_eq_nil_iff]; omega)
      obtain ⟨count, hco⟩ : ∃ count, count = min (numValues - position) d'.remainingValues := ⟨_, rfl⟩
      obtain ⟨current, runs, hh, hc⟩ := ha
      obtain ⟨k, input, hr, hk, hkle, hhol'⟩ := hh.readRun nulls (values.getD · 0) data
        (show count ≤ d'.remainingValues by omega) (fun k hk => by
          have : (values.drop (rank (presentIn nulls) position)).getD k 0 = current.getD k 0 := by
            rw [hc, getD_append _ _ _ _ hk]
          simpa [getD_eq_getElem?_getD] using this)
      have hl' := hh.length_eq
      have ha' := Ahead.of_drop (by omega) hhol'
      rw [← hc, drop_drop, ← hk] at ha'
      obtain ⟨position', hs, hge, hle', hsa, hpr', hspread⟩ :=
        skipNulls_spec nulls numValues numValues (position + count) (by omega) (by omega)
      rw [← hsa] at ha'
      obtain ⟨d'', hd'', hen, hp'⟩ := ih hle' (by omega) hpr' ha'
      refine ⟨d'', ?_, hen, hp'.trans hp⟩
      rw [readValues, if_pos hlt, hd']
      simp only [Option.bind_eq_bind, Option.bind_some, ← hco]
      rw [hr, Option.bind_some, hs, ← hspread, hd'']
    · obtain rfl : position = numValues := by omega
      exact ⟨d, by rw [readValues, if_neg hlt], h, rfl⟩

/-- A decoder with nothing left to skip reads the values ahead into the positions that are
not null. -/
theorem Ahead.fetch (h : d.Ahead values) (nulls : Option (ℕ → Bool)) (num : ℕ) (data : ℕ → Byte)
    (hl : rank (presentIn nulls) num ≤ values.length) :
    ∃ d', d.fetch data num nulls = some (d', spread (presentIn nulls) (values.getD · 0) num data) ∧
      d'.Ahead (values.drop (rank (presentIn nulls) num)) ∧ d'.pendingSkip = d.pendingSkip := by
  obtain ⟨position, hs, -, hle, hsa, hp, hspread⟩ :=
    skipNulls_spec nulls num num 0 (Nat.zero_le _) (by omega)
  obtain ⟨d', hd', hen⟩ := readValues_eq nulls data hl num hle (by omega) hp (by rwa [hsa])
  refine ⟨d', ?_, hen⟩
  rw [ByteRleDecoder.fetch, hs, ← hd', hspread, spread_zero]

/-- The output of `next`: the values at the positions that are not null, and the memory
everywhere else. -/
def answer (present : ℕ → Bool) (values : List Byte) (numValues : ℕ) (data : ℕ → Byte) : ℕ → Byte :=
  spread present (values.getD · 0) numValues data

theorem At.next (h : d.At values) (nulls : Option (ℕ → Bool)) (num : ℕ) (data : ℕ → Byte)
    (hl : rank (presentIn nulls) num ≤ values.length) :
    ∃ d', d.next data num nulls = some (d', answer (presentIn nulls) values num data) ∧
      d'.At (values.drop (rank (presentIn nulls) num)) := by
  obtain ⟨d', hd', ha, hp⟩ := h.skipPending
  obtain ⟨d'', hd'', hen, hp'⟩ := ha.fetch nulls num data hl
  refine ⟨d'', by rw [ByteRleDecoder.next, hd']; exact hd'', _, hen, by omega, ?_⟩
  rw [hp', hp, drop_zero]

end ByteRleDecoder

end Bolt.Dwrf
