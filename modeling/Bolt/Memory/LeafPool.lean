import Mathlib.Data.Int.Order.Basic
import Mathlib.Data.Nat.Bitwise
import Mathlib.Algebra.BigOperators.Group.List.Basic

/-!
# The used bytes of a leaf pool

A leaf `MemoryPoolImpl` reserves the aligned size of an allocation from its parent and
releases the aligned size of what is freed. Where `reallocate` copies, it frees the old
buffer under the alignment of the pool. An alignment below 16 passes the check of the pool,
but the allocator throws for it, and what was reserved stays reserved.
-/

namespace Bolt.Memory

/-- `bits::isPowerOfTwo`, which also holds for zero. -/
def isPowerOfTwo (size : ℕ) : Bool := (List.range 64).countP size.testBit ≤ 1

/-- `MemoryAllocator::isAlignmentValid`, with 16 for `kMinAlignment` and 64 for `kMaxAlignment`. -/
def isAlignmentValid (allocateBytes alignmentBytes : ℕ) : Bool :=
  alignmentBytes == 16 ||
    (16 ≤ alignmentBytes && alignmentBytes ≤ 64 && isPowerOfTwo alignmentBytes &&
      allocateBytes &&& (alignmentBytes - 1) == 0)

def sizeAlign (size alignment : ℕ) : ℕ :=
  let remainder := size % alignment
  if remainder = 0 then size else size + alignment - remainder

/-- `bits::roundUp` of a size that is not negative. -/
def roundUp (value factor : ℤ) : ℤ := (value + (factor - 1)) / factor * factor

def quantizedSize (size : ℤ) : ℤ :=
  if size < 16 * 1048576 then roundUp size 1048576
  else if size < 64 * 1048576 then roundUp size (4 * 1048576)
  else roundUp size (8 * 1048576)

theorem le_quantizedSize (size : ℤ) : size ≤ quantizedSize size := by
  unfold quantizedSize roundUp
  split_ifs <;> omega

/-- The alignments that a pool accepts for itself. -/
theorem isAlignmentValid_zero {alignment : ℕ} (h : isAlignmentValid 0 alignment = true) :
    alignment = 16 ∨ alignment = 32 ∨ alignment = 64 := by
  have hle : alignment ≤ 64 := by
    simp only [isAlignmentValid, Bool.or_eq_true, beq_iff_eq, Bool.and_eq_true, decide_eq_true_eq] at h
    omega
  have ha : ∀ a < 65, isAlignmentValid 0 a = true → a = 16 ∨ a = 32 ∨ a = 64 := by decide
  exact ha alignment (Nat.lt_succ_of_le hle) h

/-- The alignment of a request, which is narrowed to a byte, or else that of the pool. -/
def alignmentValueOf (poolAlignment : ℕ) (alignment : Option ℕ) : ℕ := alignment.getD poolAlignment % 256

/-- The alignments that `allocate` permits: none, or a power of two up to that of the pool. Zero
passes its check too, but the size is divided by it. -/
def Permits (poolAlignment : ℕ) (alignment : Option ℕ) : Prop :=
  alignment.all (fun a => isPowerOfTwo (a % 256) && a % 256 ≤ poolAlignment && 0 < a % 256) = true

theorem alignmentValueOf_cases {poolAlignment : ℕ} {alignment : Option ℕ} (hpool : isAlignmentValid 0 poolAlignment = true)
    (h : Permits poolAlignment alignment) :
    alignmentValueOf poolAlignment alignment ∈ [1, 2, 4, 8, 16, 32, 64] := by
  have hcases := isAlignmentValid_zero hpool
  cases alignment with
  | none => rcases hcases with rfl | rfl | rfl <;> decide
  | some a =>
    simp only [Permits, Option.all_some, Bool.and_eq_true, decide_eq_true_eq] at h
    have hpow : ∀ a ≤ 64, isPowerOfTwo a = true → 0 < a → a ∈ [1, 2, 4, 8, 16, 32, 64] := by decide
    exact hpow (a % 256) (by omega) h.1.1 h.2

/-- Of the alignments that are permitted, the allocator accepts those from 16 on. -/
theorem isAlignmentValid_sizeAlign {alignment : ℕ} (h : alignment ∈ [1, 2, 4, 8, 16, 32, 64]) (size : ℕ) :
    isAlignmentValid (sizeAlign size alignment) alignment = decide (16 ≤ alignment) := by
  have hm : sizeAlign size alignment % alignment = 0 := by
    simp only [List.mem_cons, List.not_mem_nil, or_false] at h
    unfold sizeAlign
    rcases h with rfl | rfl | rfl | rfl | rfl | rfl | rfl <;> dsimp only <;> split <;> omega
  simp only [List.mem_cons, List.not_mem_nil, or_false] at h
  rcases h with rfl | rfl | rfl | rfl | rfl | rfl | rfl
  · rfl
  · rfl
  · rfl
  · rfl
  · rfl
  · have ha := Nat.and_two_pow_sub_one_eq_mod (sizeAlign size 32) 5
    have hpow : isPowerOfTwo 32 = true := by decide
    simp_all [isAlignmentValid]
  · have ha := Nat.and_two_pow_sub_one_eq_mod (sizeAlign size 64) 6
    have hpow : isPowerOfTwo 64 = true := by decide
    simp_all [isAlignmentValid]

structure LeafPool where
  alignment : ℕ
  trackUsage : Bool := true
  threadSafe : Bool := true
  usedReservationBytes : ℤ := 0
  reservationBytes : ℤ := 0
  minReservationBytes : ℤ := 0
  /-- The constructor checks the alignment. -/
  alignment_valid : isAlignmentValid 0 alignment = true
deriving DecidableEq

/-- The answers to one call: of the ancestors to an increment of the reservation, and of
the allocator to the request for a buffer. -/
structure Answers where
  granted : Bool := true
  allocated : Bool := true
deriving DecidableEq

namespace LeafPool

variable (pool : LeafPool)

def sanityCheckLocked : Bool :=
  !(pool.reservationBytes < pool.usedReservationBytes || pool.reservationBytes < pool.minReservationBytes ||
    pool.usedReservationBytes < 0)

def reservationSizeLocked (size : ℕ) : ℤ :=
  let neededSize := size - (pool.reservationBytes - pool.usedReservationBytes)
  if neededSize ≤ 0 then 0 else quantizedSize (pool.reservationBytes + neededSize) - pool.reservationBytes

/-- `release` of used bytes. The sanity check comes last and only decides whether it throws. -/
def release (size : ℕ) : Bool × LeafPool :=
  if !pool.trackUsage then (true, pool)
  else
    let used := pool.usedReservationBytes - size
    let newQuantized := quantizedSize (max pool.minReservationBytes used)
    let freeable := pool.reservationBytes - newQuantized
    let released := { pool with
      usedReservationBytes := used
      reservationBytes := if 0 < freeable then newQuantized else pool.reservationBytes }
    (released.sanityCheckLocked || !(pool.threadSafe || 0 < freeable), released)

/-- The pass of the loop of `reserve` that finds enough reserved. -/
def useReservation (size : ℕ) : Bool × LeafPool :=
  let used := { pool with usedReservationBytes := pool.usedReservationBytes + size }
  (used.sanityCheckLocked, used)

/-- `reserve` to use the bytes. After an increment the loop finds enough reserved. -/
def reserve (size : ℕ) (granted : Bool) : Bool × LeafPool :=
  if !pool.trackUsage then (true, pool)
  else
    let increment := pool.reservationSizeLocked size
    if increment = 0 then pool.useReservation size
    else if granted then
      ({ pool with reservationBytes := pool.reservationBytes + increment } : LeafPool).useReservation size
    else (false, if pool.threadSafe then (pool.release 0).2 else pool)

/-- What `allocate` and `reallocate` do for a new buffer. The allocator throws for an
alignment that is not valid, and the reservation stays. -/
def reserveBuffer (alignedSize alignmentValue : ℕ) (answers : Answers) : Bool × LeafPool :=
  match pool.reserve alignedSize answers.granted with
  | (false, pool) => (false, pool)
  | (true, pool) =>
    if !answers.allocated then (false, (pool.release alignedSize).2)
    else (isAlignmentValid alignedSize alignmentValue, pool)

/-- `allocate`, and whether it returns a buffer. -/
def allocate (size : ℕ) (alignment : Option ℕ) (answers : Answers) : Bool × LeafPool :=
  let alignmentValue := alignmentValueOf pool.alignment alignment
  if alignment.isSome && !(isPowerOfTwo alignmentValue && alignmentValue ≤ pool.alignment) then (false, pool)
  else pool.reserveBuffer (sizeAlign size alignmentValue) alignmentValue answers

def free (size : ℕ) (alignment : Option ℕ) : Bool × LeafPool :=
  pool.release (sizeAlign size (alignmentValueOf pool.alignment alignment))

/-- What `reallocate` has done: whether it returns a new buffer, and whether the old one is gone. -/
structure Reallocation where
  returned : Bool
  freed : Bool
  pool : LeafPool

/-- `reallocate` of a buffer of the given size, or of `nullptr`. Where the release of the old
buffer throws, the new one is not returned. -/
def reallocate (jemallocEnabled : Bool) (old : Option ℕ) (newSize : ℕ) (alignment : Option ℕ) (answers : Answers) :
    Reallocation :=
  let alignmentValue := alignmentValueOf pool.alignment alignment
  match pool.reserveBuffer (sizeAlign newSize alignmentValue) alignmentValue answers with
  | (false, pool) => ⟨false, false, pool⟩
  | (true, pool) =>
    match old with
    | none => ⟨true, false, pool⟩
    | some size =>
      let (released, pool) := if jemallocEnabled then pool.release (sizeAlign size alignmentValue)
        else pool.free size (some pool.alignment)
      ⟨released, true, pool⟩

/-- What the sanity check tests, for a pool whose minimum is not negative. -/
structure Sane : Prop where
  tracks : pool.trackUsage = true
  min_nonneg : 0 ≤ pool.minReservationBytes
  min_le : pool.minReservationBytes ≤ pool.reservationBytes
  used_nonneg : 0 ≤ pool.usedReservationBytes
  used_le : pool.usedReservationBytes ≤ pool.reservationBytes

/-- The pool has `change` more bytes in use, and nothing else that matters has changed. -/
structure UsedBy (change : ℤ) (after : LeafPool) : Prop where
  alignment : after.alignment = pool.alignment
  used : after.usedReservationBytes = pool.usedReservationBytes + change
  sane : 0 ≤ after.usedReservationBytes → after.Sane

/-- What is reserved suffices, or the ancestors grant more. -/
def Reserves (bytes : ℕ) (granted : Bool) : Prop :=
  granted = true ∨ pool.usedReservationBytes + bytes ≤ pool.reservationBytes

/-- The bytes that are released for a buffer that `reallocate` replaces. -/
def releasedBytes (jemallocEnabled : Bool) (alignment : Option ℕ) (size : ℕ) : ℕ :=
  sizeAlign size (if jemallocEnabled then alignmentValueOf pool.alignment alignment else pool.alignment)

variable {pool} (hsane : pool.Sane)
include hsane

/-- A release leaves a sane pool unless it takes the used bytes below zero, and throws only then. -/
theorem Sane.release (size : ℕ) : pool.UsedBy (-size) (pool.release size).2 ∧
    ((pool.release size).1 = false → (pool.release size).2.usedReservationBytes < 0) := by
  have hq := le_quantizedSize (max pool.minReservationBytes (pool.usedReservationBytes - size))
  have hm := hsane.min_le
  have hu := hsane.used_le
  rw [LeafPool.release, if_neg (by simp [hsane.tracks])]
  refine ⟨⟨rfl, Int.sub_eq_add_neg, fun hn => { hsane with used_nonneg := hn, min_le := ?_, used_le := ?_ }⟩, ?_⟩
  · dsimp only
    split <;> omega
  · dsimp only
    split <;> omega
  · intro hfalse
    rw [Bool.or_eq_false_iff] at hfalse
    have hcheck := hfalse.1
    simp only [sanityCheckLocked, Bool.not_eq_false', Bool.or_eq_true, decide_eq_true_eq] at hcheck ⊢
    by_contra hn
    split at hcheck <;> omega

theorem Sane.useReservation {size : ℕ} (hr : pool.usedReservationBytes + size ≤ pool.reservationBytes) :
    (pool.useReservation size).1 = true ∧ pool.UsedBy size (pool.useReservation size).2 := by
  refine ⟨?_, rfl, rfl, fun h => { hsane with used_nonneg := h, used_le := hr }⟩
  obtain ⟨-, -, hm, hn, -⟩ := hsane
  simp only [LeafPool.useReservation, sanityCheckLocked, Bool.not_eq_true', Bool.or_eq_false_iff,
    decide_eq_false_iff_not]
  omega

theorem UsedBy.refl : pool.UsedBy 0 pool := ⟨rfl, (Int.add_zero _).symm, fun _ => hsane⟩

theorem Sane.reserve (size : ℕ) (granted : Bool) : ((pool.reserve size granted).1 = true ↔ pool.Reserves size granted) ∧
    pool.UsedBy (if (pool.reserve size granted).1 then size else 0) (pool.reserve size granted).2 := by
  have ht : ¬(!pool.trackUsage) = true := by simp [hsane.tracks]
  rw [LeafPool.reserve, if_neg ht, reservationSizeLocked]
  by_cases hr : size - (pool.reservationBytes - pool.usedReservationBytes) ≤ 0
  · have hle : pool.usedReservationBytes + size ≤ pool.reservationBytes := by omega
    obtain ⟨hok, hused⟩ := hsane.useReservation hle
    rw [if_pos hr, if_pos rfl, hok]
    exact ⟨iff_of_true rfl (.inr hle), hused⟩
  · have hq := le_quantizedSize (pool.reservationBytes +
      (size - (pool.reservationBytes - pool.usedReservationBytes)))
    have hm := hsane.min_le
    generalize hincrement : quantizedSize _ - pool.reservationBytes = increment
    rw [if_neg hr, if_neg (by omega)]
    cases granted with
    | true =>
      have hg : Sane { pool with reservationBytes := pool.reservationBytes + increment } :=
        { hsane with min_le := by dsimp only; omega, used_le := by dsimp only; omega }
      obtain ⟨hok, ha, haf, hsane'⟩ := @Sane.useReservation _ hg size (by dsimp only; omega)
      rw [if_pos rfl, hok]
      exact ⟨iff_of_true rfl (.inl rfl), ha, haf, hsane'⟩
    | false =>
      rw [if_neg Bool.false_ne_true]
      refine ⟨iff_of_false Bool.false_ne_true ?_, ?_⟩
      · rintro (h | h)
        · cases h
        · omega
      · rw [if_neg Bool.false_ne_true]
        dsimp only
        split
        · exact (hsane.release 0).1
        · exact UsedBy.refl hsane

omit hsane in
theorem UsedBy.trans {middle after : LeafPool} {first snd : ℤ} (h : pool.UsedBy first middle)
    (h' : middle.UsedBy snd after) : pool.UsedBy (first + snd) after where
  alignment := h'.alignment.trans h.alignment
  used := by rw [h'.used, h.used, Int.add_assoc]
  sane := h'.sane

/-- A buffer is obtained where the bytes are reserved, the allocator has them and accepts the
alignment. Where it does not accept it, the bytes stay in use. -/
theorem Sane.reserveBuffer {alignment : ℕ} (ha : alignment ∈ [1, 2, 4, 8, 16, 32, 64]) (size : ℕ) (answers : Answers) :
    let bytes := sizeAlign size alignment
    let out := pool.reserveBuffer bytes alignment answers
    (pool.Reserves bytes answers.granted ∧ answers.allocated = true → (out.1 = decide (16 ≤ alignment)) ∧
      pool.UsedBy bytes out.2) ∧
    (¬(pool.Reserves bytes answers.granted ∧ answers.allocated = true) → out.1 = false ∧ pool.UsedBy 0 out.2) := by
  obtain ⟨hiff, hused⟩ := hsane.reserve (sizeAlign size alignment) answers.granted
  have hn := hsane.used_nonneg
  dsimp only
  rw [← hiff]
  unfold LeafPool.reserveBuffer
  generalize pool.reserve (sizeAlign size alignment) answers.granted = reserved at hused
  obtain ⟨_ | _, after⟩ := reserved
  · exact ⟨fun h => absurd h.1 Bool.false_ne_true, fun _ => ⟨rfl, hused⟩⟩
  · have hused : pool.UsedBy (sizeAlign size alignment) after := hused
    have hafter : after.Sane := hused.sane (by rw [hused.used]; omega)
    dsimp only
    cases answers.allocated with
    | true => exact ⟨fun _ => ⟨isAlignmentValid_sizeAlign ha size, hused⟩, fun h => absurd ⟨rfl, rfl⟩ h⟩
    | false =>
      have hback := hused.trans (hafter.release (sizeAlign size alignment)).1
      rw [Int.add_right_neg] at hback
      exact ⟨fun h => absurd h.2 Bool.false_ne_true, fun _ => ⟨rfl, hback⟩⟩

variable {alignment : Option ℕ} (hp : Permits pool.alignment alignment)
include hp

omit hsane in
theorem alignmentValueOf_mem : alignmentValueOf pool.alignment alignment ∈ [1, 2, 4, 8, 16, 32, 64] :=
  alignmentValueOf_cases pool.alignment_valid hp

/-- Where a new buffer is obtained for an old one, the old one is released, and what is released
may throw only below zero. -/
theorem Sane.reallocate (jemallocEnabled : Bool) (old : Option ℕ) (newSize : ℕ) (answers : Answers) :
    let bytes := sizeAlign newSize (alignmentValueOf pool.alignment alignment)
    let out := pool.reallocate jemallocEnabled old newSize alignment answers
    let obtains := pool.Reserves bytes answers.granted ∧ answers.allocated = true
    (obtains → alignmentValueOf pool.alignment alignment < 16 → out.returned = false ∧ out.freed = false ∧
      pool.UsedBy bytes out.pool) ∧
    (¬obtains → out.returned = false ∧ out.freed = false ∧ pool.UsedBy 0 out.pool) ∧
    (obtains → 16 ≤ alignmentValueOf pool.alignment alignment → out.freed = old.isSome ∧
      pool.UsedBy (bytes - (old.map (pool.releasedBytes jemallocEnabled alignment)).getD 0) out.pool ∧
      (out.returned = false → out.pool.usedReservationBytes < 0)) := by
  obtain ⟨hobtains, hnot⟩ := hsane.reserveBuffer (alignmentValueOf_mem hp) newSize answers
  have hn := hsane.used_nonneg
  unfold LeafPool.reallocate
  dsimp only
  generalize pool.reserveBuffer _ _ answers = out at hobtains hnot
  obtain ⟨returned, after⟩ := out
  refine ⟨fun h hlt => ?_, fun h => ?_, fun h hge => ?_⟩
  · obtain ⟨hr, hused⟩ := hobtains h
    obtain rfl : returned = false := hr.trans (decide_eq_false (by omega))
    exact ⟨rfl, rfl, hused⟩
  · obtain ⟨rfl, hused⟩ := hnot h
    exact ⟨rfl, rfl, hused⟩
  · obtain ⟨hr, hused⟩ := hobtains h
    obtain rfl : returned = true := hr.trans (decide_eq_true hge)
    cases old with
    | none => exact ⟨rfl, by simpa using hused, nofun⟩
    | some size =>
      have hafter : after.Sane := hused.sane (by rw [hused.used]; omega)
      obtain ⟨hreleased, hthrows⟩ := hafter.release (pool.releasedBytes jemallocEnabled alignment size)
      have htotal := hused.trans hreleased
      cases jemallocEnabled with
      | true => exact ⟨rfl, htotal, hthrows⟩
      | false =>
        have hfree : after.free size (some after.alignment) = after.release (pool.releasedBytes false alignment size) := by
          have hbyte : pool.alignment % 256 = pool.alignment := by
            rcases isAlignmentValid_zero pool.alignment_valid with h | h | h <;> rw [h]
          rw [LeafPool.free, alignmentValueOf, Option.getD_some, hused.alignment, hbyte]
          rfl
        rw [← hfree] at htotal hthrows
        exact ⟨rfl, htotal, hthrows⟩

end LeafPool

structure Allocation where
  size : ℕ
  alignment : Option ℕ
deriving DecidableEq

def Allocation.alignedSize (poolAlignment : ℕ) (allocation : Allocation) : ℕ :=
  sizeAlign allocation.size (alignmentValueOf poolAlignment allocation.alignment)

/-- A pool and the allocations from it that are live, the newest first. -/
structure LeafSystem where
  pool : LeafPool
  live : List Allocation := []
deriving DecidableEq

/-- A call on the pool. A buffer is given by its place among the live allocations, where
`nullptr` has none, and is passed with the size and alignment that it was allocated with. -/
inductive LeafCall where
  | allocate (size : ℕ) (alignment : Option ℕ) (answers : Answers)
  | reallocate (p newSize : ℕ) (alignment : Option ℕ) (answers : Answers)
  | free (p : ℕ)

namespace LeafSystem

def liveBytes (poolAlignment : ℕ) (live : List Allocation) : ℕ := (live.map (·.alignedSize poolAlignment)).sum

variable (jemallocEnabled : Bool) (s : LeafSystem)

def step : LeafCall → LeafSystem
  | .allocate size alignment answers =>
    let (returned, pool) := s.pool.allocate size alignment answers
    ⟨pool, if returned then ⟨size, alignment⟩ :: s.live else s.live⟩
  | .reallocate p newSize alignment answers =>
    let out := s.pool.reallocate jemallocEnabled (s.live[p]?.map (·.size)) newSize alignment answers
    let kept := if out.freed then s.live.eraseIdx p else s.live
    ⟨out.pool, if out.returned then ⟨newSize, alignment⟩ :: kept else kept⟩
  | .free p =>
    match s.live[p]? with
    | none => s
    | some old => ⟨(s.pool.free old.size old.alignment).2, s.live.eraseIdx p⟩

def Balanced : Prop := s.pool.usedReservationBytes = liveBytes s.pool.alignment s.live

def AlwaysBalanced : LeafSystem → List LeafCall → Prop
  | s, [] => s.Balanced
  | s, call :: calls => s.Balanced ∧ AlwaysBalanced (s.step jemallocEnabled call) calls

variable {calls : List LeafCall}

variable {jemallocEnabled s} in
theorem AlwaysBalanced.head (h : AlwaysBalanced jemallocEnabled s calls) : s.Balanced := by
  cases calls with
  | nil => exact h
  | cons call calls => exact h.1

variable {jemallocEnabled} in
theorem AlwaysBalanced.last {s : LeafSystem} (h : AlwaysBalanced jemallocEnabled s calls) :
    (calls.foldl (step jemallocEnabled) s).Balanced := by
  induction calls generalizing s with
  | nil => exact h
  | cons call calls ih => exact ih h.2

section Steps

variable {s} (hsane : s.pool.Sane)
include hsane

end Steps

end LeafSystem

end Bolt.Memory
