import Bolt.Exec.WindowFrames

/-!
# Which window frames are exact

The peer buffers hold the peer group of every row, however the partition is cut into chunks. The
frames are those of SQL unless an end bound lies so far before the partition that its value is
replaced by row 0, or a 64-bit sum overflows.
-/

namespace Bolt.Exec

open Lib.Sorting

variable {ρ : Type}

theorem transCmp_compareKeys (keys : List (SortKey ρ)) : Std.TransCmp (compareKeys keys) := by
  induction keys with
  | nil => exact { eq_swap := rfl, isLE_trans := fun _ _ => rfl }
  | cons key keys ih =>
    have := key.lawful
    exact inferInstanceAs (Std.TransCmp (compareLex key.compare (compareKeys keys)))

theorem compareKeys_eq_eq {keys : List (SortKey ρ)} {lhs rhs : ρ} :
    compareKeys keys lhs rhs = .eq ↔ ∀ key ∈ keys, key.compare lhs rhs = .eq := by
  induction keys with
  | nil => simp [compareKeys]
  | cons key keys ih => simp [compareKeys, Ordering.then_eq_eq, ih]

namespace WindowPartition

variable (p : WindowPartition ρ)

section Peers

variable {peers : ℕ × ℕ}

theorem strictWeak_peerCompare : StrictWeakOrder p.peerCompare :=
  have := transCmp_compareKeys p.sortKeyInfo
  (strictWeak_isLT (compareKeys p.sortKeyInfo)).comap p.row

theorem equalKeys_iff {i j : ℕ} : p.EqualKeys i j ↔ p.peerCompare i j = false ∧ p.peerCompare j i = false := by
  have := transCmp_compareKeys p.sortKeyInfo
  have hs : compareKeys p.sortKeyInfo (p.row j) (p.row i) = (compareKeys p.sortKeyInfo (p.row i) (p.row j)).swap :=
    Std.OrientedCmp.eq_swap
  rw [EqualKeys, ← compareKeys_eq_eq, peerCompare, peerCompare, compareRowsWithSortKeys, compareRowsWithSortKeys, hs]
  cases compareKeys p.sortKeyInfo (p.row i) (p.row j) <;> decide

theorem EqualKeys.refl (i : ℕ) : p.EqualKeys i i :=
  p.equalKeys_iff.mpr ⟨p.strictWeak_peerCompare.irrefl i, p.strictWeak_peerCompare.irrefl i⟩

variable {p}

theorem EqualKeys.congr {i j k : ℕ} (h : p.EqualKeys i j) : p.EqualKeys i k ↔ p.EqualKeys j k := by
  have hl := p.strictWeak_peerCompare
  rw [equalKeys_iff] at h
  rw [equalKeys_iff, equalKeys_iff]
  exact ⟨fun hk => ⟨hl.negTrans hk.1 h.2, hl.negTrans h.1 hk.2⟩,
    fun hk => ⟨hl.negTrans hk.1 h.1, hl.negTrans h.2 hk.2⟩⟩

/-- The search stops at the first row that is after the peer group, or at the end. -/
theorem findPeerEnd_spec (p : WindowPartition ρ) (peerStart count peerEnd : ℕ) :
    peerEnd ≤ p.findPeerEnd peerStart count peerEnd ∧ p.findPeerEnd peerStart count peerEnd ≤ peerEnd + count ∧
      (∀ i, peerEnd ≤ i → i < p.findPeerEnd peerStart count peerEnd → p.peerCompare peerStart i = false) ∧
      (p.findPeerEnd peerStart count peerEnd < peerEnd + count →
        p.peerCompare peerStart (p.findPeerEnd peerStart count peerEnd) = true) := by
  induction count generalizing peerEnd with
  | zero => simp only [findPeerEnd]; grind
  | succ count ih =>
    rw [findPeerEnd]
    split
    case isTrue hl => grind
    case isFalse hl =>
      obtain ⟨hle, hen, hb, hs⟩ := ih (peerEnd + 1)
      refine ⟨by omega, by omega, fun i hi hlt => ?_, fun h => hs (by omega)⟩
      rcases hi.eq_or_lt with rfl | hi
      · simpa using hl
      · exact hb i hi hlt

def Carried (p : WindowPartition ρ) (row : ℕ) (peers : ℕ × ℕ) : Prop :=
  row = 0 ∨ 0 < peers.2 ∧ p.IsPeerGroup (row - 1) (peers.1, peers.2 - 1)

section

variable {row : ℕ} (hrow : row < p.numRows) (hcarried : p.Carried row peers)
include hrow hcarried

/-- A row that does not belong to the carried peer group starts the next one. -/
theorem isPeerGroup_findPeerEnd (hn : row = 0 ∨ peers.2 ≤ row) : 0 < p.findPeerEnd row (p.numRows - row) row ∧
      p.IsPeerGroup row (row, p.findPeerEnd row (p.numRows - row) row - 1) := by
  have hl := p.strictWeak_peerCompare
  obtain ⟨hle, hen, hb, hs⟩ := p.findPeerEnd_spec row (p.numRows - row) row
  generalize p.findPeerEnd row (p.numRows - row) row = stop at *
  have hlt : row < stop := by
    by_contra hge
    have := hs (by omega)
    rw [show stop = row by omega, hl.irrefl] at this
    cases this
  refine ⟨by omega, by show stop - 1 < _; omega, fun i hi => ⟨fun h => ?_, fun h => ?_⟩⟩
  · exact p.equalKeys_iff.mpr ⟨hb i h.1 (by have := h.2; simp only at this; omega), p.sorted row i h.1 hi⟩
  · rw [equalKeys_iff] at h
    constructor
    · by_contra hbe
      have hp : ¬row = 0 := by simp only at hbe; omega
      obtain ⟨hpo', -, hg⟩ := hcarried.resolve_left hp
      have ho : ¬p.EqualKeys (row - 1) row := by
        rw [← hg row hrow]
        omega
      -- The row before is strictly before this one, and so is every row that is not after it.
      refine ho (p.equalKeys_iff.mpr ⟨?_, p.sorted _ _ (by omega) hrow⟩)
      exact hl.negTrans h.2 (p.sorted i (row - 1) (by simp only at hbe; omega) (by omega))
    · by_contra hab
      have ha : stop ≤ i := by simp only at hab; omega
      have := hs (by omega)
      rw [hl.negTrans (p.sorted stop i ha hi) h.1] at this
      cases this

theorem isPeerGroup_carried (hold : ¬(row = 0 ∨ peers.2 ≤ row)) :
    0 < peers.2 ∧ p.IsPeerGroup row (peers.1, peers.2 - 1) := by
  rw [not_or, not_le] at hold
  obtain ⟨hpo, hl, hg⟩ := hcarried.resolve_left hold.1
  have hp := (hg (row - 1) (by omega)).mpr (EqualKeys.refl p _)
  have hequ := (hg row hrow).mp ⟨by have := hp.1; simp only at this; omega, by simp only; omega⟩
  exact ⟨hpo, hl, fun i hi => (hg i hi).trans hequ.congr⟩

theorem Carried.next : p.Carried (row + 1)
      (if row = 0 ∨ peers.2 ≤ row then (row, p.findPeerEnd row (p.numRows - row) row) else peers) := by
  refine .inr ?_
  split
  case isTrue hn => exact isPeerGroup_findPeerEnd hrow hcarried hn
  case isFalse hold => exact isPeerGroup_carried hrow hcarried hold

end

theorem Carried.peersAfter {start count : ℕ} {prevPeers : ℕ × ℕ} (hcarried : p.Carried start prevPeers)
    (hr : start + count ≤ p.numRows) : p.Carried (start + count) (p.peersAfter start prevPeers count) := by
  induction count with
  | zero => exact hcarried
  | succ count ih => exact Carried.next (Nat.lt_of_succ_le hr) (ih (by omega))

theorem Carried.chunksFrom {sizes : List ℕ} {start : ℕ} {prevPeers : ℕ × ℕ} (hcarried : p.Carried start prevPeers)
    (hr : start + sizes.sum ≤ p.numRows) : ∀ chunk ∈ p.chunksFrom sizes start prevPeers,
      chunk.startRow + chunk.numRows ≤ p.numRows ∧ p.Carried chunk.startRow chunk.prevPeers := by
  induction sizes generalizing start prevPeers with
  | nil => exact fun _ h => absurd h List.not_mem_nil
  | cons size sizes ih =>
    rw [List.sum_cons] at hr
    rw [WindowPartition.chunksFrom, List.forall_mem_cons]
    exact ⟨⟨by show start + size ≤ _; omega, hcarried⟩, ih (hcarried.peersAfter (by omega)) (by omega)⟩

theorem Carried.isPeerGroup {chunk : Chunk} (hcarried : p.Carried chunk.startRow chunk.prevPeers) {i : ℕ}
    (hi : chunk.startRow + i < p.numRows) : p.IsPeerGroup (chunk.startRow + i) (p.peerBuffers chunk i) :=
  ((hcarried.peersAfter (by omega)).resolve_left (by omega)).2

end Peers

section Frames

open Classical

variable {bound : Bound} {chunk : Chunk} {i : ℕ}

noncomputable def stored (type : WindowType) (chunk : Chunk) (i peer : ℕ) (bound : Bound) : ℤ :=
  if bound.Saturates chunk i then 0 else min (p.position type (chunk.startRow + i) peer bound) int32Max

/-- The buffer of a bound holds what is stored for it, unless a sum overflows. -/
def Stores (type : WindowType) (chunk : Chunk) (peer : ℕ → ℕ) (bound : Bound) (buffer : Except FrameError (ℕ → ℤ)) : Prop :=
  (bound.Defined chunk → ∃ bounds, buffer = .ok bounds ∧
    ∀ i < chunk.numRows, bounds i = p.stored type chunk i (peer i) bound) ∧
  (¬bound.Defined chunk → buffer = .error .overflow)

variable {p}

variable (type : WindowType)

theorem position_mem {row peer : ℕ} (ho : bound.offset = none) (hrow : row < p.numRows) (hp : peer < p.numRows) :
    0 ≤ p.position type row peer bound ∧ p.position type row peer bound < p.numRows := by
  cases bound with
  | preceding offset | following offset => cases ho
  | unboundedPreceding | unboundedFollowing => simp only [position]; omega
  | currentRow => cases type <;> simp only [position] <;> omega

theorem stored_eq {peer : ℕ} (ho : bound.offset = none) (hrow : chunk.startRow + i < p.numRows)
    (hp : peer < p.numRows) :
    p.stored type chunk i peer bound = p.position type (chunk.startRow + i) peer bound := by
  have hm : int32Max = 2 ^ 31 - 1 := rfl
  have hlt := p.numRows_lt
  have hme := position_mem type ho hrow hp
  rw [stored, if_neg (by cases bound <;> first | exact id | cases ho)]
  omega

theorem position_lt {type : WindowType} {peer : ℕ} (h : bound.Saturates chunk i) (hi : chunk.startRow + i < 2 ^ 31) :
    p.position type (chunk.startRow + i) peer bound < 0 := by
  have hm : int32Min = -2 ^ 31 := rfl
  match bound, h with
  | .preceding (.constant offset), h =>
    simp only [Bound.Saturates] at h
    simp only [position, Offset.at]
    omega
  | .preceding (.perRow offset), h =>
    simp only [Bound.Saturates] at h
    simp only [position, Offset.at]
    omega

theorem toInt32_eq {x : ℤ} (hl : int32Min ≤ x) (hh : x ≤ int32Max) : toInt32 x = x := by
  simp only [int32Min, int32Max] at hl hh
  exact Int.bmod_eq_of_le (by omega) (by omega)

/-- What is stored for a constant offset. The first row that overflows is converted to 32 bits:
2^31 turns negative, and no chunk is that long. -/
theorem constantBounds_eq (prec : Bool) {offset : ℤ} {startRow numRows : ℕ} (ho : 0 ≤ offset)
    (hi : i < numRows) (hr : startRow + numRows < 2 ^ 31) :
    constantBounds prec (startRow + if prec then -offset else offset) numRows i =
      if prec ∧ startRow - offset < int32Min then 0
      else min ((startRow + i : ℕ) + if prec then -offset else offset) int32Max := by
  have hm : int32Max = 2 ^ 31 - 1 := rfl
  have hmi : int32Min = -2 ^ 31 := rfl
  have hio : ∀ x : ℤ, int32Min ≤ x → x ≤ int32Max → toInt32 x = x := fun _ => toInt32_eq
  have hw : toInt32 (2 ^ 31) = -2 ^ 31 := by decide
  cases prec with
  | true =>
    simp only [constantBounds, if_true, true_and]
    grind
  | false =>
    simp only [constantBounds, Bool.false_eq_true, if_false, false_and]
    grind

theorem stores_constant (peer : ℕ → ℕ) (prec : Bool) (k : Fin (2 ^ 63))
    (hr : chunk.startRow + chunk.numRows < 2 ^ 31) :
    p.Stores type chunk peer (if prec then .preceding (.constant k) else .following (.constant k))
      (updateKRowsFrameBounds prec chunk.startRow chunk.numRows (.constant k)) := by
  have hf : Fits64 (chunk.startRow + if prec then -(k.val : ℤ) else k.val) ↔
      (if prec then Bound.preceding (.constant k) else .following (.constant k)).Defined chunk := by
    cases prec <;> simp only [Fits64, Bound.Defined, Bool.false_eq_true, if_false, if_true, iff_true] <;> omega
  rw [Stores, ← hf, updateKRowsFrameBounds]
  refine ⟨fun h => ⟨_, if_pos h, fun i hi => ?_⟩, fun h => if_neg h⟩
  rw [constantBounds_eq prec (Int.natCast_nonneg _) hi hr]
  cases prec with
  | true => simp only [stored, Bound.Saturates, position, Offset.at, if_true, true_and, sub_eq_add_neg]
  | false => simp only [stored, Bound.Saturates, position, Offset.at, Bool.false_eq_true, if_false, false_and]

theorem stores_perRow (peer : ℕ → ℕ) (prec : Bool) (k : ℕ → Fin (2 ^ 63))
    (hr : chunk.startRow + chunk.numRows < 2 ^ 31) :
    p.Stores type chunk peer (if prec then .preceding (.perRow k) else .following (.perRow k))
      (updateKRowsFrameBounds prec chunk.startRow chunk.numRows (Offset.perRow k).arg) := by
  have hm : int32Min = -2 ^ 31 := rfl
  have hlt := fun i => (k (chunk.startRow + i)).isLt
  have hc : ((List.range chunk.numRows).findSome? fun i => offsetError (some ⟨(k (chunk.startRow + i)).val,
      by omega, by have := hlt i; omega⟩)) = none := by
    refine List.findSome?_eq_none_iff.mpr fun i _ => ?_
    rw [offsetError, if_pos (Int.natCast_nonneg _)]
  have hf : (∀ i < chunk.numRows, Fits64 ((chunk.startRow + i) +
      (if prec then -1 else 1) * ((k (chunk.startRow + i)).val : ℤ))) ↔
      (if prec then Bound.preceding (.perRow k) else .following (.perRow k)).Defined chunk := by
    cases prec with
    | true =>
      refine iff_of_true (fun i hi => ?_) trivial
      simp only [Fits64, if_true]
      omega
    | false =>
      refine forall₂_congr fun i hi => ?_
      simp only [Fits64, Bool.false_eq_true, if_false]
      omega
  rw [Stores, ← hf, Offset.arg, updateKRowsFrameBounds, updateKRowsOffsetsColumn, hc]
  refine ⟨fun h => ⟨_, if_pos h, fun i hi => ?_⟩, fun h => if_neg h⟩
  cases prec with
  | true =>
    simp only [storedBound, stored, Bound.Saturates, position, Offset.at, if_true, Option.elim]
    split_ifs <;> omega
  | false =>
    simp only [storedBound, stored, Bound.Saturates, position, Offset.at, Bool.false_eq_true, if_false, Option.elim]
    split_ifs <;> omega

theorem stores_updateFrameBounds (frame : Frame) (isStart : Bool) {peer : ℕ → ℕ}
    (hb : bound = if isStart then frame.start else frame.stop) (hr : chunk.startRow + chunk.numRows ≤ p.numRows)
    (hp : peer = fun i => if isStart then (p.peerBuffers chunk i).1 else (p.peerBuffers chunk i).2)
    (hpe : ∀ i < chunk.numRows, peer i < p.numRows) :
    p.Stores frame.type chunk peer bound (p.updateFrameBounds frame.toWindowFrame isStart chunk) := by
  have hlt := p.numRows_lt
  have ht : (if isStart then frame.toWindowFrame.startType else frame.toWindowFrame.endType) = bound.type := by
    subst hb
    cases isStart <;> rfl
  have ha : (if isStart then frame.toWindowFrame.start else frame.toWindowFrame.stop) = bound.offset.map Offset.arg := by
    subst hb
    cases isStart <;> rfl
  have hro : bound.offset ≠ none → frame.toWindowFrame.type = .rows := by
    intro ho
    cases hki : frame.type with
    | rows => exact hki
    | range =>
      subst hb
      cases isStart
      · exact absurd (frame.offset_eq_none hki).2 ho
      · exact absurd (frame.offset_eq_none hki).1 ho
  have hpl : ∀ i < chunk.numRows, bound.offset = none →
      p.position frame.type (chunk.startRow + i) (peer i) bound = p.stored frame.type chunk i (peer i) bound :=
    fun i hi ho => (stored_eq frame.type ho (by omega) (hpe i hi)).symm
  simp only [updateFrameBounds, ht, ha]
  cases bound with
  | preceding offset =>
    simp only [Bound.type, Bound.offset, Option.map_some, hro (Option.some_ne_none _)]
    cases offset with
    | constant k => exact stores_constant frame.type peer true k (by omega)
    | perRow k => exact stores_perRow frame.type peer true k (by omega)
  | following offset =>
    simp only [Bound.type, Bound.offset, Option.map_some, hro (Option.some_ne_none _)]
    cases offset with
    | constant k => exact stores_constant frame.type peer false k (by omega)
    | perRow k => exact stores_perRow frame.type peer false k (by omega)
  | unboundedPreceding | unboundedFollowing =>
    exact ⟨fun _ => ⟨_, rfl, fun i hi => hpl i hi rfl⟩, fun h => absurd trivial h⟩
  | currentRow =>
    have hs : frame.toWindowFrame.type = frame.type := rfl
    refine ⟨fun _ => ?_, fun h => absurd trivial h⟩
    simp only [Bound.type, hs]
    cases hki : frame.type with
    | range =>
      rw [hki] at hpl
      refine ⟨_, rfl, fun i hi => Eq.trans ?_ (hpl i hi rfl)⟩
      subst hp
      cases isStart <;> rfl
    | rows =>
      rw [hki] at hpl
      exact ⟨_, rfl, fun i hi => hpl i hi rfl⟩

theorem reports_iff {reported : RowFrame} {numRows : ℕ} {first last : ℤ} :
    reported.Reports {i | i < numRows ∧ first ≤ i ∧ (i : ℤ) ≤ last} ↔
      if reported.valid then max first 0 ≤ min last (numRows - 1) ∧ reported.frameStart = max first 0 ∧
        reported.frameEnd = min last (numRows - 1)
      else min last (numRows - 1) < max first 0 := by
  rw [RowFrame.Reports]
  split
  case isTrue hv =>
    constructor
    · rintro ⟨i, j, hi, hj, ⟨⟨hlt, hf, hl⟩, hlea⟩, ⟨hlt', hf', hla'⟩, hgreatest⟩
      have h₁ := @hlea (max first 0).toNat ⟨by omega, by omega, by omega⟩
      have h₂ := @hgreatest (min last (numRows - 1)).toNat ⟨by omega, by omega, by omega⟩
      omega
    · rintro ⟨hle, hs, hen⟩
      refine ⟨(max first 0).toNat, (min last (numRows - 1)).toNat, by omega, by omega,
        ⟨⟨by omega, by omega, by omega⟩, ?_⟩, ⟨by omega, by omega, by omega⟩, ?_⟩
      · rintro i ⟨hlt, hf, hl⟩
        omega
      · rintro i ⟨hlt, hf, hl⟩
        omega
  case isFalse hv =>
    rw [Set.eq_empty_iff_forall_notMem]
    constructor
    · intro h
      have := h (max first 0).toNat
      simp only [Set.mem_ofPred_eq] at this
      omega
    · rintro hlt i ⟨hi, hf, hl⟩
      omega

theorem reports_frameRows_iff (frame : Frame) {peers : ℕ × ℕ} {first last : ℤ} (hrow : chunk.startRow + i < p.numRows)
    (hpe : peers.1 < p.numRows ∧ peers.2 < p.numRows)
    (hf : first = p.stored frame.type chunk i peers.1 frame.start)
    (hl : last = p.stored frame.type chunk i peers.2 frame.stop) :
    RowFrame.Reports (if frame.start.offset = none ∧ frame.stop.offset = none then ⟨true, first, last⟩
      else computeValidFrame (p.numRows - 1) first last) (p.frameRows frame (chunk.startRow + i) peers) ↔
      p.RowExact frame chunk i peers := by
  have hlt := p.numRows_lt
  have hm : int32Max = 2 ^ 31 - 1 := rfl
  rw [frameRows, reports_iff, RowExact, hf, hl]
  by_cases hp : frame.start.offset = none ∧ frame.stop.offset = none
  · have hst := position_mem frame.type hp.1 hrow hpe.1
    have hs := position_mem frame.type hp.2 hrow hpe.2
    simp only [if_pos hp, stored_eq frame.type hp.1 hrow hpe.1, stored_eq frame.type hp.2 hrow hpe.2, if_true]
    omega
  · have hst : frame.start.Saturates chunk i → p.position frame.type (chunk.startRow + i) peers.1 frame.start < 0 :=
      fun h => position_lt h (by omega)
    have hs : frame.stop.Saturates chunk i → p.position frame.type (chunk.startRow + i) peers.2 frame.stop < 0 :=
      fun h => position_lt h (by omega)
    simp only [if_neg hp, stored, computeValidFrame]
    grind

theorem computeFrames_ok (frame : Frame) {starts ends : ℕ → ℤ}
    (hs : p.updateFrameBounds frame.toWindowFrame true chunk = .ok starts)
    (hen : p.updateFrameBounds frame.toWindowFrame false chunk = .ok ends) :
    p.computeFrames frame.toWindowFrame chunk = .ok fun i =>
      if frame.start.offset = none ∧ frame.stop.offset = none then ⟨true, starts i, ends i⟩
      else computeValidFrame (p.numRows - 1) (starts i) (ends i) := by
  have ha : (frame.toWindowFrame.start.isSome ∨ frame.toWindowFrame.stop.isSome) ↔
      ¬(frame.start.offset = none ∧ frame.stop.offset = none) := by
    rw [Frame.toWindowFrame, Option.isSome_map, Option.isSome_map, Option.isSome_iff_ne_none, Option.isSome_iff_ne_none]
    tauto
  rw [computeFrames, hs, hen]
  show (if _ then Except.ok _ else Except.ok _) = _
  by_cases hp : frame.start.offset = none ∧ frame.stop.offset = none
  · rw [if_neg fun h => ha.mp h hp]
    exact congrArg _ (funext fun i => (if_pos hp).symm)
  · rw [if_pos (ha.mpr hp)]
    exact congrArg _ (funext fun i => (if_neg hp).symm)

end Frames

end WindowPartition

theorem WindowPartition.IsPeerGroup.unique {p : WindowPartition ρ} {row : ℕ} {peers other : ℕ × ℕ}
    (h : p.IsPeerGroup row peers) (h' : p.IsPeerGroup row other) (hrow : row < p.numRows) : peers = other := by
  have hself := (h.2 row hrow).mpr (WindowPartition.EqualKeys.refl p row)
  have hself' := (h'.2 row hrow).mpr (WindowPartition.EqualKeys.refl p row)
  have hsame := fun i hi => (h.2 i hi).trans (h'.2 i hi).symm
  have hbound := h.1
  have hbound' := h'.1
  refine Prod.ext ?_ ?_
  · have h1 := hsame peers.1 (by omega)
    have h2 := hsame other.1 (by omega)
    omega
  · have h1 := hsame peers.2 hbound
    have h2 := hsame other.2 hbound'
    omega

/-- Whatever the cut, the peers reported are the peer groups, and the frames reported for a chunk
are those of SQL exactly if the chunk is exact. -/
theorem windowFrames_iff (p : WindowPartition ρ) (frame : Frame) (cut : p.Cut) : ∀ chunk ∈ cut.chunks,
      (∀ i < chunk.numRows, p.IsPeerGroup (chunk.startRow + i) (p.peerBuffers chunk i)) ∧
      ((∃ frames, p.computeFrames frame.toWindowFrame chunk = .ok frames ∧ ∀ i < chunk.numRows,
          (frames i).Reports (p.frameRows frame (chunk.startRow + i) (p.peerBuffers chunk i))) ↔
        p.FramesExact frame chunk) := by
  intro chunk hchunk
  obtain ⟨hrows, hcarried⟩ := WindowPartition.Carried.chunksFrom (.inl rfl) (by rw [cut.sum_sizes, zero_add]) chunk hchunk
  have hgroup : ∀ i < chunk.numRows, p.IsPeerGroup (chunk.startRow + i) (p.peerBuffers chunk i) :=
    fun i hi => hcarried.isPeerGroup (by omega)
  refine ⟨hgroup, ?_⟩
  have hpeers : ∀ i < chunk.numRows, (p.peerBuffers chunk i).1 < p.numRows ∧ (p.peerBuffers chunk i).2 < p.numRows := by
    intro i hi
    have hself := ((hgroup i hi).2 _ (by omega)).mpr (WindowPartition.EqualKeys.refl p _)
    exact ⟨by omega, (hgroup i hi).1⟩
  obtain ⟨hstarts, hstartError⟩ := p.stores_updateFrameBounds frame true rfl hrows rfl fun i hi => (hpeers i hi).1
  obtain ⟨hends, hstopError⟩ := p.stores_updateFrameBounds frame false rfl hrows rfl fun i hi => (hpeers i hi).2
  by_cases hstart : frame.start.Defined chunk
  · obtain ⟨starts, hok, hstored⟩ := hstarts hstart
    by_cases hstop : frame.stop.Defined chunk
    · obtain ⟨ends, hok', hstored'⟩ := hends hstop
      have hreports := fun i hi => p.reports_frameRows_iff frame
        (Nat.lt_of_lt_of_le (Nat.add_lt_add_left hi _) hrows) (hpeers i hi) (hstored i hi) (hstored' i hi)
      rw [p.computeFrames_ok frame hok hok']
      constructor
      · rintro ⟨_, ⟨⟩, hright⟩
        refine ⟨hstart, hstop, fun i hi peers hpeers => ?_⟩
        rw [hpeers.unique (hgroup i hi) (by omega)]
        exact (hreports i hi).mp (hright i hi)
      · exact fun h => ⟨_, rfl, fun i hi => (hreports i hi).mpr (h.2.2 i hi _ (hgroup i hi))⟩
    · rw [WindowPartition.computeFrames, hok, hstopError hstop]
      exact iff_of_false (fun ⟨_, h, _⟩ => nomatch h) fun h => hstop h.2.1
  · rw [WindowPartition.computeFrames, hstartError hstart]
    exact iff_of_false (fun ⟨_, h, _⟩ => nomatch h) fun h => hstart h.1

def oneRow : WindowPartition Unit where
  sortKeyInfo := []
  numRows := 1
  row _ := ()
  computeKRangeFrameBounds _ _ _ _ rawPeerBuffer := rawPeerBuffer
  numRows_lt := by decide
  sorted _ _ _ _ := rfl

def upToPreceding (offset : Fin (2 ^ 63)) : Frame where
  type := .rows
  start := .unboundedPreceding
  stop := .preceding (.constant offset)
  offset_eq_none := nofun

/-- Five rows with the keys 0, 1, 1, 1, 2. -/
def threePeers : WindowPartition ℕ where
  sortKeyInfo := [⟨compare, inferInstance⟩]
  numRows := 5
  row i := if i = 0 then 0 else if i < 4 then 1 else 2
  computeKRangeFrameBounds _ _ _ _ rawPeerBuffer := rawPeerBuffer
  numRows_lt := by decide
  sorted i j hij hj := by
    have hall : ∀ j < 5, ∀ i ≤ j, compareRowsWithSortKeys [⟨(compare : ℕ → ℕ → Ordering), inferInstance⟩]
        (if j = 0 then 0 else if j < 4 then 1 else 2) (if i = 0 then 0 else if i < 4 then 1 else 2) = false := by decide
    exact hall j hj i hij

/-- The peers go on from the first chunk into the second. -/
theorem windowFrames_iff_threePeers : ⟨2, 3, (1, 4)⟩ ∈ (⟨[2, 3], rfl⟩ : threePeers.Cut).chunks ∧
    threePeers.IsPeerGroup 2 (1, 3) ∧
    ∃ frames, threePeers.computeFrames (upToPreceding 1).toWindowFrame ⟨2, 3, (1, 4)⟩ = .ok frames ∧ ∀ i < 3,
      (frames i).Reports (threePeers.frameRows (upToPreceding 1) (2 + i) (threePeers.peerBuffers ⟨2, 3, (1, 4)⟩ i)) := by
  have hmem : ⟨2, 3, (1, 4)⟩ ∈ (⟨[2, 3], rfl⟩ : threePeers.Cut).chunks := List.mem_cons_of_mem _ (List.mem_singleton.mpr rfl)
  obtain ⟨hgroup, hframes⟩ := windowFrames_iff threePeers (upToPreceding 1) ⟨[2, 3], rfl⟩ _ hmem
  refine ⟨hmem, hgroup 0 (by decide), hframes.mpr ⟨trivial, trivial, fun i hi peers _ h => ?_⟩⟩
  exact absurd (show 2 - 1 < int32Min from h.1) (by decide)

/-- The frame that ends 2147483649 rows before the only row is reported as that row. -/
theorem computeFrames_farPreceding : ∃ frames,
    oneRow.computeFrames (upToPreceding 2147483649).toWindowFrame ⟨0, 1, (0, 0)⟩ = .ok frames ∧ frames 0 = ⟨true, 0, 0⟩ ∧
      oneRow.frameRows (upToPreceding 2147483649) 0 (oneRow.peerBuffers ⟨0, 1, (0, 0)⟩ 0) = ∅ := by
  refine ⟨_, rfl, by decide, Set.eq_empty_iff_forall_notMem.mpr ?_⟩
  rintro i ⟨-, -, hend⟩
  have : (i : ℤ) ≤ 0 - 2147483649 := hend
  omega

end Bolt.Exec
