import Bolt.Dwrf.BooleanRle

/-!
# What the boolean decoder reads

The bits ahead are those left of the last byte and the bits of the bytes ahead. Skipping
and reading take bits off the front; a read leaves at most seven bits of its last byte.
The shifts and the scatter are stated for every bit of the output.
-/

namespace Bolt.Dwrf

open Lib Lib.Chunks Lib.Spread Lib.BitMemory List BitVec BooleanRleDecoder

theorem reverseByte_eq : ∀ byte : Byte, reverseByte byte = byte.reverse := by
  decide +kernel

theorem getLsbD_reverseByte (byte : Byte) (i : ℕ) : (reverseByte byte).getLsbD i = byte.getMsbD i := by
  rw [reverseByte_eq, getLsbD_reverse]

/-- The bits of bytes that were read and reversed. -/
theorem bit_reverseBits (bytes : List Byte) (count : ℕ) (data : Memory) (i : ℕ) :
    bit (reverseBits (spread (fun _ => true) (bytes.getD · 0) count data) count) i =
      if i < 8 * count then (bytes.getD (i / 8) 0).getMsbD (i % 8) else bit data i := by
  rw [bit, reverseBits]
  by_cases hi : i < 8 * count
  · rw [if_pos (by omega), if_pos hi, getLsbD_reverseByte, spread, if_pos ⟨by omega, rfl⟩, rank_all]
  · rw [if_neg (by omega), if_neg hi, spread, if_neg (by omega), bit]

theorem getLsbD_leftover (byte : Byte) {remaining : ℕ} (h : remaining ≤ 8) (t : ℕ) :
    (byte >>> (8 - remaining)).getLsbD t = (decide (t < remaining) && byte.getLsbD (8 - remaining + t)) := by
  rw [getLsbD_ushiftRight]
  by_cases ht : t < remaining
  · simp [ht]
  · rw [getLsbD_of_ge _ _ (by omega)]
    simp

/-- Bits shifted up by `shift`, with the previous ones below them. -/
def shifted (shift : ℕ) (previous bits : ℕ → Bool) (i : ℕ) : Bool := if i < shift then previous i else bits (i - shift)

/-- The memory and the previous byte when the bytes before `a` have been shifted. -/
structure ShiftedTo (shift : ℕ) (previous bits : ℕ → Bool) (a : ℕ) (s : Memory × Byte) : Prop where
  bit_eq : ∀ i, bit s.1 i = if i < 8 * a then shifted shift previous bits i else bits i
  previous_eq : ∀ t, s.2.getLsbD t = (decide (t < shift) && shifted shift previous bits (8 * a + t))

variable {shift : ℕ} {previous bits : ℕ → Bool}

theorem ShiftedTo.shiftWord {a : ℕ} {s : Memory × Byte} (h : ShiftedTo shift previous bits a s) (hs : shift < 8) {k : ℕ}
    (hk : 0 < k) : ShiftedTo shift previous bits (a + k) (shiftWord k shift s a) := by
  have htm : ∀ t < 8 * k, (load k s.1 a).getLsbD t = bits (8 * a + t) := by
    intro t ht
    rw [load, getLsbD_loadBits, decide_eq_true ht, Bool.true_and, h.bit_eq, if_neg (by omega)]
  constructor
  · intro i
    rw [Dwrf.shiftWord]
    rw [bit_store]
    by_cases hin : 8 * a ≤ i ∧ i < 8 * a + 8 * k
    · rw [if_pos hin, if_pos (by omega), getLsbD_or, getLsbD_setWidth, getLsbD_shiftLeft,
        h.previous_eq, Nat.add_sub_cancel' hin.1]
      by_cases hl : i - 8 * a < shift
      · simp [hl, show i - 8 * a < 8 * k by omega]
      · rw [htm _ (by omega)]
        simp [hl, show i - 8 * a < 8 * k by omega, shifted, show ¬ i < shift by omega,
          show 8 * a + (i - 8 * a - shift) = i - shift by omega]
    · rw [if_neg hin, h.bit_eq]
      grind
  · intro t
    rw [Dwrf.shiftWord]
    rw [getLsbD_setWidth, getLsbD_ushiftRight]
    by_cases ht : t < shift
    · rw [htm _ (by omega)]
      simp [ht, show t < 8 by omega, shifted, show ¬ 8 * (a + k) + t < shift by omega,
        show 8 * a + (8 * k - shift + t) = 8 * (a + k) + t - shift by omega]
    · rw [getLsbD_of_ge _ _ (by omega)]
      simp [ht]

theorem ShiftedTo.foldl (hs : shift < 8) {k : ℕ} (hk : 0 < k) (count : ℕ) : ∀ {a : ℕ} {s : Memory × Byte},
    ShiftedTo shift previous bits a s → ShiftedTo shift previous bits (a + k * count)
      ((range count).foldl (fun s i => Dwrf.shiftWord k shift s (a + k * i)) s) := by
  induction count with
  | zero => intro a s h; exact h
  | succ count ih =>
    intro a s h
    rw [range_succ, foldl_append, foldl_cons, foldl_nil, Nat.mul_succ, ← Nat.add_assoc]
    exact (ih h).shiftWord hs hk

theorem bit_shiftBits (hs : shift < 8) {nn : ℕ} {data : Memory} {previousByte : Byte}
    (hp : ∀ t, previousByte.getLsbD t = (decide (t < shift) && previous t)) (i : ℕ) :
    bit (shiftBits shift nn previousByte data) i =
      if i < 8 * ((nn + 7) / 8) then shifted shift previous (bit data) i else bit data i := by
  have hst : ShiftedTo shift previous (bit data) 0 (data, previousByte) := by
    refine ⟨fun i => by rw [if_neg (by omega)], fun t => ?_⟩
    rw [hp, shifted]
    by_cases ht : t < shift <;> simp [ht]
  have hw := hst.foldl hs (k := 8) (by omega) (nn / 64)
  have hb := hw.foldl hs (k := 1) (by omega) ((nn + 7) / 8 - nn / 64 * 8)
  rw [shiftBits]
  rw [range'_eq_map_range, foldl_map]
  simp only [Nat.zero_add, Nat.one_mul, Nat.mul_comm 8 (nn / 64)] at hw hb
  rw [hb.bit_eq, show nn / 64 * 8 + ((nn + 7) / 8 - nn / 64 * 8) = (nn + 7) / 8 by omega]

namespace BooleanRleDecoder

def bitAhead (d : BooleanRleDecoder) (bytes : List Byte) (j : ℕ) : Bool :=
  shifted d.remainingBits (fun j => d.reversedLastByte.getLsbD (8 - d.remainingBits + j))
    (fun j => (bytes.getD (j / 8) 0).getMsbD (j % 8)) j

/-- The values ahead of the decoder, apart from what it has yet to skip. Bits that pad the
last byte may come after them. -/
def Ahead (d : BooleanRleDecoder) (values : List Bool) : Prop :=
  d.remainingBits < 8 ∧ ∃ bytes, d.toByteRleDecoder.Ahead bytes ∧ values.length ≤ d.remainingBits + 8 * bytes.length ∧
    ∀ j < values.length, values.getD j false = d.bitAhead bytes j

/-- Where the decoder is, with what it has yet to skip. -/
def At (d : BooleanRleDecoder) (values : List Bool) : Prop :=
  ∃ all, d.Ahead all ∧ d.pendingSkip ≤ all.length ∧ values = all.drop d.pendingSkip

variable {d : BooleanRleDecoder} {values : List Bool}

theorem At.skip (h : d.At values) {num : ℕ} (hl : num ≤ values.length) :
    (d.skip num).At (values.drop num) := by
  obtain ⟨all, ha, hle, rfl⟩ := h
  rw [length_drop] at hl
  exact ⟨all, ha, by simp only [skip, ByteRleDecoder.skip]; omega, drop_drop⟩

theorem Ahead.advance {d' : BooleanRleDecoder} {count : ℕ} {bytes bytes' : List Byte}
    (hl : values.length ≤ d.remainingBits + 8 * bytes.length)
    (hv : ∀ j < values.length, values.getD j false = d.bitAhead bytes j)
    (hb : d'.remainingBits < 8) (hby : d'.toByteRleDecoder.Ahead bytes')
    (hc : d.remainingBits + 8 * bytes.length = count + (d'.remainingBits + 8 * bytes'.length))
    (ha : ∀ j, d'.bitAhead bytes' j = d.bitAhead bytes (count + j)) : d'.Ahead (values.drop count) := by
  refine ⟨hb, bytes', hby, by rw [length_drop]; omega, fun j hj => ?_⟩
  rw [length_drop] at hj
  rw [ha, ← hv _ (by omega), getD_eq_getElem?_getD, getD_eq_getElem?_getD, getElem?_drop]

/-- The bits ahead when some of the last of the bytes read are left. -/
theorem bitAhead_of_last {d' : BooleanRleDecoder} {bytes : List Byte} {count bytesRead : ℕ} (hlt : d.remainingBits < count)
    (hr : bytesRead = (count - d.remainingBits + 7) / 8) (hl : d'.reversedLastByte = reverseByte (bytes.getD (bytesRead - 1) 0))
    (hre : d'.remainingBits = bytesRead * 8 + d.remainingBits - count) (j : ℕ) :
    d'.bitAhead (bytes.drop bytesRead) j = d.bitAhead bytes (count + j) := by
  simp only [bitAhead, shifted]
  rw [if_neg (show ¬ count + j < d.remainingBits by omega)]
  split
  · next hj =>
    rw [hl, getLsbD_reverseByte]
    congr 2 <;> omega
  · next hj =>
    rw [getD_eq_getElem?_getD, getD_eq_getElem?_getD, getElem?_drop,
      show bytesRead + (j - d'.remainingBits) / 8 = (count + j - d.remainingBits) / 8 by omega,
      show (j - d'.remainingBits) % 8 = (count + j - d.remainingBits) % 8 by omega]

theorem At.skipPending (h : d.At values) : ∃ d', d.skipPending = some d' ∧ d'.Ahead values ∧ d'.pendingSkip = 0 := by
  obtain ⟨all, ⟨hbi, bytes, hby, hl, hv⟩, hle, rfl⟩ := h
  rw [skipPending]
  dsimp only
  split
  · next hfew =>
    refine ⟨_, rfl, Ahead.advance hl hv (by simp only; omega) hby (by simp only; omega) fun j => ?_, rfl⟩
    simp only [bitAhead, shifted]
    grind
  · next hmany =>
    obtain ⟨num, hn⟩ : ∃ num, num = d.pendingSkip - d.remainingBits := ⟨_, rfl⟩
    rw [← hn]
    obtain ⟨base, hb, ha, hp⟩ := ByteRleDecoder.At.skipPending
      (d := { d.toByteRleDecoder with pendingSkip := num / 8 })
      ⟨bytes, hby, by simp only; omega, rfl⟩
    rw [hb]
    simp only [Option.bind_eq_bind, Option.bind_some]
    by_cases hr : num % 8 = 0
    · rw [if_neg (not_not.mpr hr)]
      refine ⟨_, rfl, Ahead.advance hl hv (by simp) ha (by simp only [length_drop]; omega) fun j => ?_, hp⟩
      simp only [bitAhead, shifted]
      rw [if_neg (by omega), if_neg (by omega), getD_eq_getElem?_getD, getD_eq_getElem?_getD, getElem?_drop,
        show num / 8 + (j - 0) / 8 = (d.pendingSkip + j - d.remainingBits) / 8 by omega,
        show (j - 0) % 8 = (d.pendingSkip + j - d.remainingBits) % 8 by omega]
    · obtain ⟨base', hfetch, ha', hpend'⟩ := ha.fetch none 1 (fun _ => d.reversedLastByte)
        (by rw [presentIn, Option.getD_none, rank_all, length_drop]; simp only; omega)
      rw [presentIn, Option.getD_none] at hfetch ha'
      rw [if_pos hr, hfetch]
      rw [rank_all, drop_drop] at ha'
      refine ⟨_, rfl, Ahead.advance hl hv (by simp only; omega) ha' (by simp only [length_drop]; omega)
        (bitAhead_of_last (by omega) (by simp only; omega) ?_ (by simp only; omega)), hpend'.trans hp⟩
      simp [spread, getD_eq_getElem?_getD]

/-- The front of the output holds the bits ahead; what lies beyond its bytes is untouched. -/
theorem Ahead.readBits (h : d.Ahead values) {nn : ℕ} (hpo : 0 < nn) (hle : nn ≤ values.length) (data : Memory) :
    ∃ d' data', d.readBits data nn = some (d', data') ∧ d'.Ahead (values.drop nn) ∧ d'.pendingSkip = d.pendingSkip ∧
      (∀ i < nn, bit data' i = values.getD i false) ∧
      ∀ i, 8 * ((nn + 7) / 8) ≤ i → bit data' i = bit data i := by
  obtain ⟨hbi, bytes, hby, hl, hv⟩ := h
  rw [BooleanRleDecoder.readBits]
  split
  · next hfew =>
    refine ⟨_, _, rfl, Ahead.advance hl hv (by simp only; omega) hby (by simp only; omega) fun j => ?_, rfl,
      fun i hi => ?_, fun i hi => by rw [bit_update, if_neg (by omega)]⟩
    · simp only [bitAhead, shifted]
      grind
    · rw [bit_update, if_pos (by omega), hv i (by omega), bitAhead, shifted, if_pos (by omega), getLsbD_and,
        getLsbD_ushiftRight, getLsbD_ushiftRight, show i % 8 = i by omega]
      have : (255#8).getLsbD (8 - nn + i) = true := by
        rw [show (255#8) = allOnes 8 by decide, getLsbD_allOnes, decide_eq_true (by omega)]
      rw [this, Bool.and_true]
  · next hmany =>
    obtain ⟨bytesRead, hr⟩ : ∃ bytesRead, bytesRead = (nn - d.remainingBits + 7) / 8 := ⟨_, rfl⟩
    simp only [← hr]
    obtain ⟨base, hfetch, ha, hpe⟩ := hby.fetch none bytesRead data
      (by rw [presentIn, Option.getD_none, rank_all]; omega)
    rw [presentIn, Option.getD_none] at hfetch ha
    rw [rank_all] at ha
    simp only [hfetch, Option.bind_eq_bind, Option.bind_some]
    obtain ⟨fetched, hfetched⟩ : ∃ fetched, fetched = reverseBits (spread (fun _ => true) (bytes.getD · 0) bytesRead data) bytesRead :=
      ⟨_, rfl⟩
    rw [← hfetched]
    have hb := fun i => bit_reverseBits bytes bytesRead data i
    rw [← hfetched] at hb
    have hla : fetched (bytesRead - 1) = reverseByte (bytes.getD (bytesRead - 1) 0) := by
      rw [hfetched, reverseBits, if_pos (by omega), spread, if_pos ⟨by omega, rfl⟩, rank_all]
    have hp := getLsbD_leftover d.reversedLastByte hbi.le
    refine ⟨_, _, rfl, Ahead.advance hl hv (by simp only; omega) ha (by simp only [length_drop]; omega)
      (bitAhead_of_last (by omega) hr hla rfl), hpe, fun i hi => ?_, fun i hi => ?_⟩
    · rw [hv i (by omega), bitAhead]
      split
      · rw [bit_shiftBits hbi hp, if_pos (by omega), shifted, shifted]
        split
        · rfl
        · rw [hb, if_pos (by omega)]
      · next hn =>
        rw [hb, if_pos (by omega), shifted, if_neg (by omega), show d.remainingBits = 0 by omega, Nat.sub_zero]
    · split
      · rw [bit_shiftBits hbi hp, if_neg (by omega), hb, if_neg (by omega)]
      · rw [hb, if_neg (by omega)]

/-- The output of `next`: the values at the positions that are not null, nothing else in
its bytes, and the memory beyond them. -/
def answer (present : ℕ → Bool) (values : List Bool) (numValues : ℕ) (data : Memory) : Memory := fun a =>
  if a < (numValues + 7) / 8 then
    ofBits 8 fun t => spread present (values.getD · false) numValues (fun _ => false) (8 * a + t)
  else data a

theorem bit_answer (present : ℕ → Bool) (values : List Bool) (num : ℕ) (data : Memory) (i : ℕ) :
    bit (answer present values num data) i =
      if i < 8 * ((num + 7) / 8) then spread present (values.getD · false) num (fun _ => false) i else bit data i := by
  rw [bit, answer]
  by_cases hi : i < 8 * ((num + 7) / 8)
  · rw [if_pos (by omega), if_pos hi, getLsbD_ofBits, decide_eq_true (by omega), Bool.true_and, show 8 * (i / 8) + i % 8 = i by omega]
  · rw [if_neg (by omega), if_neg hi, bit]

/-- Clearing the high bits of the last byte leaves the values and nothing else. -/
theorem clear_last_eq_answer {present : ℕ → Bool} {num : ℕ} {out : Memory} (data : Memory) (hp : 0 < num)
    (hv : ∀ i < num, bit out i = spread present (values.getD · false) num (fun _ => false) i)
    (hb : ∀ i, 8 * ((num + 7) / 8) ≤ i → bit out i = bit data i) :
    Function.update out ((num + 7) / 8 - 1)
        (out ((num + 7) / 8 - 1) &&& (0xff#8 >>> ((num + 7) / 8 * 8 - num))) =
      answer present values num data := by
  have hm : ∀ t < 8, (0xff#8 >>> ((num + 7) / 8 * 8 - num)).getLsbD t =
      decide (8 * ((num + 7) / 8 - 1) + t < num) := by
    intro t ht
    rw [show 0xff#8 = allOnes 8 by decide, getLsbD_ushiftRight, getLsbD_allOnes]
    exact decide_eq_decide.mpr (by omega)
  refine ext_bit fun i => ?_
  rw [bit_update, bit_answer]
  by_cases hl : i / 8 = (num + 7) / 8 - 1
  · have hi8 : 8 * ((num + 7) / 8 - 1) + i % 8 = i := by omega
    rw [if_pos hl, if_pos (by omega), getLsbD_and, hm _ (by omega), hi8, ← hl]
    by_cases hi : i < num
    · rw [decide_eq_true hi, Bool.and_true, ← hv i hi, bit]
    · rw [decide_eq_false hi, Bool.and_false, spread, if_neg (by omega)]
  · rw [if_neg hl]
    split_ifs with hi
    · rw [hv i (by omega)]
    · rw [hb i (by omega)]

theorem fill_eq_answer {present : ℕ → Bool} {num : ℕ} (hz : rank present num = 0) (data : Memory) :
    ByteRleDecoder.fill data 0 ((num + 7) / 8) 0 = answer present values num data := by
  refine ext_bit fun i => ?_
  have hn : spread present (values.getD · false) num (fun _ => false) i = false := by
    rw [spread, if_neg]
    rintro ⟨hi, hp⟩
    have := rank_lt _ hi hp
    omega
  rw [bit_answer, bit, ByteRleDecoder.fill, hn]
  by_cases hi : i < 8 * ((num + 7) / 8)
  · rw [if_pos (by omega), if_pos hi]
    simp
  · rw [if_neg (by omega), if_neg hi, bit]

theorem At.next (hasBmi2 : Bool) (h : d.At values) (nulls : Option (ℕ → Bool)) (numValues : ℕ) (data : Memory)
    (hl : rank (presentIn nulls) numValues ≤ values.length) :
    ∃ d', d.next hasBmi2 data numValues nulls = some (d', answer (presentIn nulls) values numValues data) ∧
      d'.At (values.drop (rank (presentIn nulls) numValues)) := by
  obtain ⟨d₁, hsk, hah, hpe⟩ := h.skipPending
  have hn : nulls.elim numValues (rank · numValues) = rank (presentIn nulls) numValues := by
    cases nulls with
    | none => exact (rank_all numValues).symm
    | some present => rfl
  have hle := rank_le (presentIn nulls) numValues
  rw [BooleanRleDecoder.next, hsk]
  simp only [Option.bind_eq_bind, Option.bind_some, hn]
  split
  · next hz =>
    refine ⟨d₁, by rw [fill_eq_answer hz]; rfl, ?_⟩
    rw [hz]
    exact ⟨values, hah, by omega, by rw [hpe]⟩
  · next hpo =>
    obtain ⟨d₂, read, hr, hahe', hpend', hf, hb⟩ := hah.readBits (Nat.pos_of_ne_zero hpo) hl data
    rw [hr]
    refine ⟨d₂, ?_, _, hahe', by omega, by rw [hpend', hpe, drop_zero]⟩
    obtain ⟨out, ho⟩ : ∃ out, out = if rank (presentIn nulls) numValues < numValues then
      scatterBits hasBmi2 (rank (presentIn nulls) numValues) numValues (presentIn nulls) read else read := ⟨_, rfl⟩
    have hs : Scattered (presentIn nulls) 0 numValues read out := by
      rw [ho]
      split
      · exact scatterBits_scattered hasBmi2 numValues
      · next ha => exact scattered_self (not_lt.mp ha)
    simp only [Option.bind_some, Option.pure_def, gt_iff_lt, ← ho]
    rw [clear_last_eq_answer data (by omega) (fun i hi => ?_) (fun i hi => ?_)]
    · rw [hs, if_pos ⟨Nat.zero_le _, hi⟩, spread]
      cases hp : presentIn nulls i with
      | false => simp
      | true => rw [hf _ (rank_lt _ hi hp), if_pos ⟨hi, rfl⟩, Bool.true_and]
    · rw [hs, if_neg (by omega), hb i (by omega)]

end BooleanRleDecoder

end Bolt.Dwrf
