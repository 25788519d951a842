import Mathlib.Algebra.BigOperators.Group.List.Basic
import Mathlib.Algebra.GroupWithZero.Nat

/-!
# Coalesced reads

`coalesceIo` joins the reads of neighbouring items. The ranges of a read describe
consecutive bytes of the file, so that every item gets its own bytes.
-/

namespace Bolt.CoalesceIo

open List

/-- What `offsetFunc`, `sizeFunc` and `numRanges` return for an item, and the lengths of the
ranges that `addRanges` adds for it. -/
structure Item where
  offset : UInt64
  size : ℕ
  numRanges : ℤ
  buffers : List ℕ
  sum_buffers : buffers.sum = size

/-- A range of memory, or a gap that is read and dropped. -/
inductive Range where
  | data (length : ℕ)
  | gap (length : ℕ)
deriving DecidableEq

def Range.length : Range → ℕ
  | data length | gap length => length

/-- The arguments of a call of `ioFunc`; the items are those from the first to process up to
the first not to process. -/
structure Io where
  items : List Item
  offset : UInt64
  ranges : List Range

def noCoalesce : ℤ := -1

/-- Counters that do not overflow: `numIos` stays below `2 ^ 31`, the bytes below `2 ^ 63`. -/
structure CoalesceIoStats where
  numIos : ℕ := 0
  payloadBytes : ℕ := 0
  extraBytes : ℕ := 0

/-- The state of the loop. The items since the last call of `ioFunc` stand for `startItem`. -/
structure Loop where
  items : List Item := []
  startOffset : UInt64
  lastEndOffset : UInt64
  ranges : List Range := []
  previousNoCoalesce : Bool := false
  ios : List Io := []
  result : CoalesceIoStats := {}

def Loop.io (s : Loop) : Io := ⟨s.items, s.startOffset, s.ranges⟩

/-- The sum is one of `size_t`. -/
def Loop.enoughRanges (s : Loop) (rangesPerIo : Int32) (item : Item) : Bool :=
  (s.previousNoCoalesce || item.numRanges == noCoalesce ||
    .ofInt rangesPerIo.toInt ≤ UInt64.ofNat s.ranges.length + .ofInt item.numRanges) && !s.ranges.isEmpty

def Loop.gap (s : Loop) (item : Item) : ℤ := (item.offset - s.lastEndOffset).toInt64.toInt

/-- The part of a round before `addRanges`. -/
def Loop.prepare (maxGap rangesPerIo : Int32) (s : Loop) (item : Item) : Loop :=
  if s.lastEndOffset ≠ item.offset ∨ s.enoughRanges rangesPerIo item then
    if 0 < s.gap item ∧ s.gap item < maxGap.toInt ∧ !s.enoughRanges rangesPerIo item then
      { s with
        result := { s.result with extraBytes := s.result.extraBytes + (s.gap item).toNat }
        ranges := s.ranges ++ [.gap (s.gap item).toNat] }
    else
      { s with
        result := { s.result with numIos := s.result.numIos + 1 }
        ios := s.ios ++ [s.io], items := [], ranges := [], startOffset := item.offset }
  else s

def Loop.round (maxGap rangesPerIo : Int32) (s : Loop) (item : Item) : Loop :=
  let s := s.prepare maxGap rangesPerIo item
  { s with
    result := { s.result with payloadBytes := s.result.payloadBytes + item.size }
    items := s.items ++ [item]
    ranges := s.ranges ++ item.buffers.map .data
    lastEndOffset := item.offset + .ofNat item.size
    previousNoCoalesce := item.numRanges == noCoalesce }

/-- `coalesceIo` on a list that is not empty: the calls of `ioFunc` and the result. -/
def coalesceIo (maxGap rangesPerIo : Int32) (first : Item) (rest : List Item) : List Io × CoalesceIoStats :=
  let s := (first :: rest).foldl (Loop.round maxGap rangesPerIo)
    { startOffset := first.offset, lastEndOffset := first.offset }
  (s.ios ++ [s.io], { s.result with numIos := s.result.numIos + 1 })

def bytesAt (file : UInt64 → UInt8) (offset : UInt64) (length : ℕ) : List UInt8 :=
  (range length).map fun i => file (offset + .ofNat i)

/-- What `preadv` puts into the ranges, which follow one another in the file. -/
def preadv (file : UInt64 → UInt8) : UInt64 → List Range → List (List UInt8)
  | _, [] => []
  | offset, .data length :: rest => bytesAt file offset length :: preadv file (offset + .ofNat length) rest
  | offset, .gap length :: rest => preadv file (offset + .ofNat length) rest

def Item.filled (file : UInt64 → UInt8) (item : Item) : List (List UInt8) :=
  preadv file item.offset (item.buffers.map .data)

theorem preadv_append (file : UInt64 → UInt8) (offset : UInt64) (a b : List Range) :
    preadv file offset (a ++ b) = preadv file offset a ++ preadv file (offset + .ofNat (a.map Range.length).sum) b := by
  induction a generalizing offset with
  | nil => simp [preadv]
  | cons range rest ih =>
    have hsu : offset + UInt64.ofNat ((range :: rest).map Range.length).sum =
        offset + .ofNat range.length + .ofNat (rest.map Range.length).sum := by
      rw [map_cons, sum_cons, UInt64.ofNat_add, UInt64.add_assoc]
    rw [hsu]
    cases range with
    | data length => simp [preadv, ih, Range.length]
    | gap length => simp [preadv, ih, Range.length]

theorem flatten_preadv_data (file : UInt64 → UInt8) (offset : UInt64) (buffers : List ℕ) :
    (preadv file offset (buffers.map .data)).flatten = bytesAt file offset buffers.sum := by
  induction buffers generalizing offset with
  | nil => rfl
  | cons length rest ih =>
    rw [map_cons, preadv, flatten_cons, ih, sum_cons, bytesAt, bytesAt, bytesAt, range_add, map_append, map_map]
    congr 2
    funext i
    simp [UInt64.ofNat_add, UInt64.add_assoc]

theorem ofNat_gap {x : UInt64} (hp : 0 < x.toInt64.toInt) : UInt64.ofNat x.toInt64.toInt.toNat = x := by
  have ht : x.toInt64.toInt = x.toNat := by
    have hc := x.toBitVec.toInt_eq_toNat_cond
    have heq : x.toInt64.toInt = x.toBitVec.toInt := rfl
    have hn : x.toBitVec.toNat = x.toNat := rfl
    have hlt := x.toNat_lt
    split_ifs at hc <;> omega
  rw [ht, Int.toNat_natCast, UInt64.ofNat_toNat]

def Range.dropped : Range → ℕ
  | data _ => 0
  | gap length => length

def Io.dropped (io : Io) : ℕ := (io.ranges.map Range.dropped).sum

/-- Of two items in one IO, if one is marked, the first has no ranges. -/
def Apart (a b : Item) : Prop := a.numRanges = noCoalesce ∨ b.numRanges = noCoalesce → a.buffers = []

/-- What a call of `ioFunc` does for its items. -/
structure Io.Serves (maxGap : Int32) (io : Io) : Prop where
  filled : ∀ file, preadv file io.offset io.ranges = io.items.flatMap (·.filled file)
  gaps : ∀ length : ℕ, .gap length ∈ io.ranges → 0 < length ∧ length < maxGap.toInt
  apart : io.items.Pairwise Apart

/-- The calls so far, and the one in preparation, whose ranges end at `position`. -/
structure Loop.Sound (maxGap : Int32) (s : Loop) (done : List Item) (position : UInt64) : Prop where
  serves : s.io.Serves maxGap
  empty : s.ranges = [] → ∀ item ∈ s.items, item.buffers = []
  marked : s.previousNoCoalesce = false → ∀ item ∈ s.items, item.numRanges = noCoalesce → item.buffers = []
  issued : ∀ io ∈ s.ios, io.items ≠ [] ∧ io.Serves maxGap
  items : s.ios.flatMap Io.items ++ s.items = done
  position : s.startOffset + .ofNat (s.ranges.map Range.length).sum = position
  numIos : s.result.numIos = s.ios.length
  payloadBytes : s.result.payloadBytes = (done.map Item.size).sum
  extraBytes : s.result.extraBytes = (s.ios.map Io.dropped).sum + s.io.dropped

section Round

variable {maxGap : Int32} {s : Loop} {done : List Item} (hs : s.Sound maxGap done s.lastEndOffset) (rangesPerIo : Int32)
  (item : Item)
include hs

/-- Before the ranges of an item are added, the ranges end at its offset. -/
theorem Loop.Sound.prepare (hst : s.items = [] → s.lastEndOffset = item.offset ∧ s.ranges = []) :
    (s.prepare maxGap rangesPerIo item).Sound maxGap done item.offset ∧
      ∀ other ∈ (s.prepare maxGap rangesPerIo item).items, Apart other item := by
  have ha : s.enoughRanges rangesPerIo item = false → ∀ other ∈ s.items, Apart other item := by
    intro hen other ho hor
    by_cases hr : s.ranges = []
    · exact hs.empty hr other ho
    · simp only [enoughRanges, Bool.and_eq_false_iff, Bool.or_eq_false_iff, Bool.not_eq_false', List.isEmpty_iff, hr,
        or_false, beq_eq_false_iff_ne] at hen
      exact hs.marked hen.1.1 other ho (hor.resolve_right hen.1.2)
  rw [Loop.prepare]
  split_ifs with hsp hsk
  · obtain ⟨hp, hlt, hen⟩ := hsk
    have hg : UInt64.ofNat (s.gap item).toNat = item.offset - s.lastEndOffset := ofNat_gap hp
    refine ⟨{ hs with serves := ⟨fun file => ?_, ?_, hs.serves.apart⟩, empty := ?_, position := ?_, extraBytes := ?_ },
      ha (by simpa using hen)⟩
    · have hf := hs.serves.filled file
      simp only [Loop.io] at hf ⊢
      rw [preadv_append, hf]
      simp [preadv]
    · intro length hl
      obtain hl | hl := mem_append.mp hl
      · exact hs.serves.gaps length hl
      · cases mem_singleton.mp hl
        omega
    · simp
    · rw [map_append, sum_append, UInt64.ofNat_add, ← UInt64.add_assoc, hs.position, map_singleton, sum_singleton,
        Range.length, hg]
      rw [UInt64.add_comm, UInt64.sub_add_cancel]
    · have hext := hs.extraBytes
      simp only [Loop.io, Io.dropped, map_append, sum_append, map_singleton, sum_singleton, Range.dropped] at hext ⊢
      omega
  · have hite : s.items ≠ [] := by
      intro hn
      obtain ⟨hend, hr⟩ := hst hn
      simp [hend, hr, enoughRanges] at hsp
    have hext := hs.extraBytes
    refine ⟨⟨⟨fun _ => rfl, nofun, Pairwise.nil⟩, nofun, nofun, ?_, ?_, ?_, ?_, hs.payloadBytes, ?_⟩, nofun⟩
    · intro io hio
      obtain hio | hio := mem_append.mp hio
      · exact hs.issued io hio
      · rw [mem_singleton.mp hio]
        exact ⟨hite, hs.serves⟩
    · simpa [Loop.io] using hs.items
    · simp
    · simp [hs.numIos]
    · simpa [Io.dropped, Loop.io] using hext
  · rw [not_or, not_not] at hsp
    exact ⟨hsp.1 ▸ hs, ha (by simpa using hsp.2)⟩

theorem Loop.Sound.round (hst : s.items = [] → s.lastEndOffset = item.offset ∧ s.ranges = []) :
    (s.round maxGap rangesPerIo item).Sound maxGap (done ++ [item]) (s.round maxGap rangesPerIo item).lastEndOffset := by
  obtain ⟨hp, ha⟩ := hs.prepare rangesPerIo item hst
  rw [Loop.round]
  generalize s.prepare maxGap rangesPerIo item = s' at hp ha
  have hsi : ((item.buffers.map Range.data).map Range.length).sum = item.size := by
    rw [map_map, ← item.sum_buffers]
    exact congrArg sum (map_id _)
  have hd : ((item.buffers.map Range.data).map Range.dropped).sum = 0 := by
    rw [map_map]
    exact sum_eq_zero (by simp [Range.dropped])
  have hext := hp.extraBytes
  refine ⟨⟨fun file => ?_, fun length hl => ?_, ?_⟩, fun hn => ?_, fun hite other ho => ?_, hp.issued,
    ?_, ?_, hp.numIos, ?_, ?_⟩
  · have hf := hp.serves.filled file
    simp only [Loop.io] at hf ⊢
    rw [preadv_append, hf, hp.position]
    simp [Item.filled]
  · obtain hl | hl := mem_append.mp hl
    · exact hp.serves.gaps length hl
    · simp at hl
  · exact pairwise_append.mpr ⟨hp.serves.apart, pairwise_singleton _ _, by simpa using ha⟩
  · obtain ⟨hr, hb⟩ := append_eq_nil_iff.mp hn
    have hbe := hp.empty hr
    rw [map_eq_nil_iff] at hb
    simp only [mem_append, mem_singleton]
    grind
  · obtain ho | ho := mem_append.mp ho
    · exact fun h => ha other ho (.inl h)
    · rw [mem_singleton.mp ho]
      exact fun h => absurd h (by simpa using hite)
  · rw [← append_assoc, hp.items]
  · rw [map_append, sum_append, hsi, UInt64.ofNat_add, ← UInt64.add_assoc, hp.position]
  · simp [hp.payloadBytes]
  · simp only [Loop.io, Io.dropped, map_append, sum_append, hd] at hext ⊢
    exact hext

theorem Loop.Sound.rounds (hite : s.items ≠ []) (rest : List Item) :
    let after := rest.foldl (Loop.round maxGap rangesPerIo) s
    after.Sound maxGap (done ++ rest) after.lastEndOffset ∧ after.items ≠ [] := by
  induction rest generalizing s done with
  | nil => exact ⟨by simpa using hs, hite⟩
  | cons item rest ih =>
    have hr := ih (hs.round rangesPerIo item fun h => absurd h hite) (by simp [Loop.round])
    rwa [append_assoc] at hr

end Round

/-- The calls of `coalesceIo` take the items one after another, each item's ranges get the
bytes of the item, and nothing is dropped but gaps below the maximum. -/
theorem coalesceIo_serves (maxGap rangesPerIo : Int32) (first : Item) (rest : List Item) :
    let (ios, result) := coalesceIo maxGap rangesPerIo first rest
    ios.flatMap Io.items = first :: rest ∧ (∀ io ∈ ios, io.items ≠ [] ∧ io.Serves maxGap) ∧
      (∀ file, ∀ item ∈ first :: rest, (item.filled file).flatten = bytesAt file item.offset item.size) ∧
      result.numIos = ios.length ∧ result.payloadBytes = ((first :: rest).map Item.size).sum ∧
      result.extraBytes = (ios.map Io.dropped).sum := by
  have hstart : Loop.Sound maxGap { startOffset := first.offset, lastEndOffset := first.offset } [] first.offset :=
    ⟨⟨fun _ => rfl, nofun, Pairwise.nil⟩, nofun, nofun, nofun, rfl, by simp, rfl, rfl, rfl⟩
  have hfirst := hstart.round rangesPerIo first fun _ => ⟨rfl, rfl⟩
  obtain ⟨hsound, hitems⟩ := hfirst.rounds rangesPerIo (by simp [Loop.round]) rest
  have hextra := hsound.extraBytes
  refine ⟨?_, fun io hio => ?_, fun file item _ => ?_, ?_, hsound.payloadBytes, ?_⟩
  · simpa [Loop.io] using hsound.items
  · obtain hio | hio := mem_append.mp hio
    · exact hsound.issued io hio
    · rw [mem_singleton.mp hio]
      exact ⟨hitems, hsound.serves⟩
  · rw [Item.filled, flatten_preadv_data, item.sum_buffers]
  · simpa using hsound.numIos
  · simpa using hextra

/-- An item without ranges, and one at the same offset that is not to be coalesced. -/
theorem noCoalesce_shares :
    let first : Item := ⟨100, 0, 0, [], rfl⟩
    let second : Item := ⟨100, 8, noCoalesce, [8], rfl⟩
    (coalesceIo 25000 900 first [second]).1.map (·.items.length) = [2] := by
  decide

end Bolt.CoalesceIo
