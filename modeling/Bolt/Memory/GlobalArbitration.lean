import Mathlib.Data.List.Perm.Basic
import Mathlib.Algebra.GroupWithZero.Nat

/-!
# The waiters of the global arbitration

A `SharedArbitrator` gives out its free capacity under a lock. An operation that finds too
little waits under the id of its participant, and `freeCapacity` resumes the waiters from
the oldest participant on, as long as their requests fit.
-/

namespace Bolt.Memory

/-- What `allocateCapacity` is called with. It checks the request against its limit. -/
structure CapacityRequest where
  participantId : ℕ
  requestBytes : ℕ
  maxGrowBytes : ℕ
  minGrowBytes : ℕ
  request_le : requestBytes ≤ maxGrowBytes
deriving DecidableEq

/-- An `ArbitrationOperation` with its targets, whose constructor checks that something is requested. -/
structure ArbitrationOperation extends CapacityRequest where
  request_pos : 0 < requestBytes
deriving DecidableEq

namespace GlobalArbitration

/-- `freeReservedCapacity_` and `freeNonReservedCapacity_`. -/
structure FreeCapacity where
  reserved : ℕ
  nonReserved : ℕ
deriving DecidableEq

/-- The request can be served: reserved capacity counts up to the minimum only. -/
def FreeCapacity.Fits (free : FreeCapacity) (op : CapacityRequest) : Prop :=
  op.requestBytes ≤ free.nonReserved + min (op.minGrowBytes - free.nonReserved) free.reserved

def allocateCapacityLocked (free : FreeCapacity) (globalArbitrationWaiters : List ArbitrationOperation)
    (op : CapacityRequest) : ℕ × FreeCapacity :=
  if ∃ oldest ∈ globalArbitrationWaiters.head?,
      oldest.participantId < op.participantId ∧ op.minGrowBytes < op.requestBytes then (0, free)
  else
    let maxAllocateBytes :=
      if globalArbitrationWaiters = [] then op.maxGrowBytes else max op.requestBytes op.minGrowBytes
    let nonReservedBytes := min free.nonReserved maxAllocateBytes
    if maxAllocateBytes ≤ nonReservedBytes then
      (nonReservedBytes, { free with nonReserved := free.nonReserved - nonReservedBytes })
    else
      let reservedBytes :=
        if nonReservedBytes < op.minGrowBytes then min (op.minGrowBytes - nonReservedBytes) free.reserved else 0
      if nonReservedBytes + reservedBytes < op.requestBytes then (0, free)
      else (nonReservedBytes + reservedBytes, ⟨free.reserved - reservedBytes, free.nonReserved - nonReservedBytes⟩)

/-- The loop over the waiters: those that are resumed with what they get, the capacity
that is left and those that wait on. -/
def resumeGlobalArbitrationWaitersLocked (free : FreeCapacity) :
    List ArbitrationOperation → List (ArbitrationOperation × ℕ) × FreeCapacity × List ArbitrationOperation
  | [] => ([], free, [])
  | op :: rest =>
    let (allocatedBytes, left) := allocateCapacityLocked free (op :: rest) op.toCapacityRequest
    if allocatedBytes = 0 then ([], left, op :: rest)
    else
      let (resumes, out) := resumeGlobalArbitrationWaitersLocked left rest
      ((op, allocatedBytes) :: resumes, out)

/-- `emplace` of the map of the waiters, which is ordered by their participants. -/
def emplace (op : ArbitrationOperation) : List ArbitrationOperation → List ArbitrationOperation
  | [] => [op]
  | first :: rest =>
    if op.participantId < first.participantId then op :: first :: rest
    else if op.participantId = first.participantId then first :: rest
    else first :: emplace op rest

end GlobalArbitration

open GlobalArbitration List

/-- `promises` records the operations that began to wait, and `fulfilled` those whose
promise was set, with the bytes allocated to them. -/
structure SharedArbitrator where
  capacity : ℕ
  reservedCapacity : ℕ
  free : FreeCapacity := ⟨reservedCapacity, capacity - reservedCapacity⟩
  globalArbitrationWaiters : List ArbitrationOperation := []
  promises : List ArbitrationOperation := []
  fulfilled : List (ArbitrationOperation × ℕ) := []

namespace SharedArbitrator

/-- The locked sections. `allocateCapacity` is that of `growWithFreeCapacity` and of `addPool`,
which requests nothing, and `removeGlobalArbitrationWaiter` follows a timeout or an abort. -/
inductive Section where
  | allocateCapacity (op : CapacityRequest)
  | startAndWaitGlobalArbitration (op : ArbitrationOperation)
  | freeCapacity (bytes : ℕ)
  | removeGlobalArbitrationWaiter (id : ℕ)

variable (a : SharedArbitrator)

def step : Section → SharedArbitrator
  | .allocateCapacity op => { a with free := (allocateCapacityLocked a.free a.globalArbitrationWaiters op).2 }
  | .startAndWaitGlobalArbitration op =>
    let (allocatedBytes, free) := allocateCapacityLocked a.free a.globalArbitrationWaiters op.toCapacityRequest
    -- a participant runs one operation at a time
    if ∃ waiter ∈ a.globalArbitrationWaiters, waiter.participantId = op.participantId then a
    else if allocatedBytes = 0 then
      { a with free, globalArbitrationWaiters := emplace op a.globalArbitrationWaiters, promises := op :: a.promises }
    else { a with free }
  | .freeCapacity bytes =>
    let freedBytes := min bytes (a.reservedCapacity - a.free.reserved)
    let free : FreeCapacity := ⟨a.free.reserved + freedBytes, a.free.nonReserved + (bytes - freedBytes)⟩
    if bytes = 0 ∨ a.reservedCapacity < a.free.reserved then a
    -- the check of the capacity throws
    else if a.capacity < free.nonReserved + free.reserved then { a with free }
    else
      let (resumes, free, globalArbitrationWaiters) :=
        resumeGlobalArbitrationWaitersLocked free a.globalArbitrationWaiters
      { a with free, globalArbitrationWaiters, fulfilled := a.fulfilled ++ resumes }
  | .removeGlobalArbitrationWaiter id =>
    match a.globalArbitrationWaiters.find? (·.participantId = id) with
    | none => a
    | some op => { a with
        globalArbitrationWaiters := a.globalArbitrationWaiters.erase op
        fulfilled := a.fulfilled ++ [(op, 0)] }

def run (sections : List Section) : SharedArbitrator := sections.foldl step a

/-- Whether an operation may begin to wait in the section. -/
def Section.starts : Section → Bool
  | .startAndWaitGlobalArbitration _ => true
  | _ => false

/-- The waiters stand by their ids, and each promise is fulfilled once or still waited for.
With capacity it is fulfilled for all that was requested. -/
structure Served : Prop where
  sorted : a.globalArbitrationWaiters.Pairwise (·.participantId < ·.participantId)
  once : a.promises.Perm (a.fulfilled.map Prod.fst ++ a.globalArbitrationWaiters)
  enough : ∀ out ∈ a.fulfilled, out.2 ≠ 0 → out.1.requestBytes ≤ out.2
  reserved_le : a.free.reserved ≤ a.reservedCapacity

/-- The waiters that are resumed with capacity come before those that are left. -/
def Resumes (after : SharedArbitrator) : Prop :=
  ∃ resumed, after.fulfilled = a.fulfilled ++ resumed ∧
    ((resumed.filter (·.2 ≠ 0)).map Prod.fst ++ after.globalArbitrationWaiters).Sublist a.globalArbitrationWaiters

/-- An allocation takes what it gives from the free capacity. -/
theorem allocateCapacityLocked_left (free : FreeCapacity) (waiters : List ArbitrationOperation) (op : CapacityRequest) :
    (allocateCapacityLocked free waiters op).1 + ((allocateCapacityLocked free waiters op).2.nonReserved +
        (allocateCapacityLocked free waiters op).2.reserved) = free.nonReserved + free.reserved ∧
      (allocateCapacityLocked free waiters op).2.reserved ≤ free.reserved := by
  unfold allocateCapacityLocked
  dsimp only
  split_ifs <;> dsimp only <;> omega

/-- The oldest waiter gets all that it requested, or nothing because it does not fit. -/
theorem allocateCapacityLocked_oldest (free : FreeCapacity) (op : ArbitrationOperation) (rest : List ArbitrationOperation) :
    (allocateCapacityLocked free (op :: rest) op.toCapacityRequest).1 ≠ 0 ∧
        op.requestBytes ≤ (allocateCapacityLocked free (op :: rest) op.toCapacityRequest).1 ∨
      allocateCapacityLocked free (op :: rest) op.toCapacityRequest = (0, free) ∧ ¬free.Fits op.toCapacityRequest := by
  have hle := op.request_le
  have hpos := op.request_pos
  have hold : ¬∃ oldest ∈ (op :: rest).head?, oldest.participantId < op.participantId ∧
      op.minGrowBytes < op.requestBytes := by
    rintro ⟨_, ⟨⟩, hlt, -⟩
    omega
  unfold allocateCapacityLocked FreeCapacity.Fits
  rw [if_neg hold, if_neg (cons_ne_nil op rest)]
  dsimp only
  split_ifs with hall
  · refine .inl ⟨?_, ?_⟩ <;> dsimp only <;> omega
  all_goals first
    | exact .inr ⟨rfl, by omega⟩
    | exact .inl ⟨by dsimp only; omega, by dsimp only; omega⟩

/-- The resumed waiters are the oldest, each gets what it requested, and the oldest of
those that wait on does not fit into what is left. -/
theorem resume_spec (free : FreeCapacity) (waiters : List ArbitrationOperation) :
    let out := resumeGlobalArbitrationWaitersLocked free waiters
    out.1.map Prod.fst ++ out.2.2 = waiters ∧
      (∀ resumed ∈ out.1, resumed.2 ≠ 0 ∧ resumed.1.requestBytes ≤ resumed.2) ∧
      (out.1.map Prod.snd).sum + (out.2.1.nonReserved + out.2.1.reserved) = free.nonReserved + free.reserved ∧
      out.2.1.reserved ≤ free.reserved ∧
      ∀ oldest ∈ out.2.2.head?, ¬out.2.1.Fits oldest.toCapacityRequest := by
  induction waiters generalizing free with
  | nil => exact ⟨rfl, nofun, Nat.zero_add _, Nat.le_refl _, nofun⟩
  | cons op rest ih =>
    obtain ⟨hleft, hres⟩ := allocateCapacityLocked_left free (op :: rest) op.toCapacityRequest
    rw [resumeGlobalArbitrationWaitersLocked]
    rcases allocateCapacityLocked_oldest free op rest with ⟨hne, hle⟩ | ⟨heq, hfit⟩
    · obtain ⟨hw, hen, hsum, hr, hold⟩ := ih (allocateCapacityLocked free (op :: rest) op.toCapacityRequest).2
      dsimp only
      rw [if_neg hne]
      refine ⟨congrArg (op :: ·) hw, forall_mem_cons.mpr ⟨⟨hne, hle⟩, hen⟩, ?_, Nat.le_trans hr hres, hold⟩
      rw [map_cons, sum_cons]
      dsimp only
      omega
    · rw [heq]
      dsimp only
      rw [if_pos rfl]
      refine ⟨rfl, nofun, Nat.zero_add _, Nat.le_refl _, ?_⟩
      rintro _ ⟨⟩
      exact hfit

theorem emplace_spec {op : ArbitrationOperation} {waiters : List ArbitrationOperation}
    (hn : ∀ waiter ∈ waiters, waiter.participantId ≠ op.participantId)
    (hs : waiters.Pairwise (·.participantId < ·.participantId)) :
    (emplace op waiters).Perm (op :: waiters) ∧ (emplace op waiters).Pairwise (·.participantId < ·.participantId) := by
  induction waiters with
  | nil => exact ⟨.refl _, pairwise_singleton _ _⟩
  | cons first rest ih =>
    obtain ⟨hf, hr⟩ := forall_mem_cons.mp hn
    obtain ⟨hl, hso'⟩ := pairwise_cons.mp hs
    obtain ⟨hp, hpairwise⟩ := ih hr hso'
    rw [emplace, if_neg hf.symm]
    split_ifs with ho
    · exact ⟨.refl _, pairwise_cons.mpr ⟨by grind, hs⟩⟩
    · refine ⟨(hp.cons first).trans (.swap op first rest), pairwise_cons.mpr ⟨fun waiter hwaiter => ?_, hpairwise⟩⟩
      grind

variable {a}

theorem Resumes.refl {free : FreeCapacity} : a.Resumes { a with free } := ⟨[], by simp, .refl _⟩

theorem Resumes.trans {b c : SharedArbitrator} (hab : a.Resumes b) (hb : b.Resumes c) : a.Resumes c := by
  obtain ⟨first, hf, hl⟩ := hab
  obtain ⟨snd, hs, hr⟩ := hb
  refine ⟨first ++ snd, by rw [hs, hf, append_assoc], ?_⟩
  rw [filter_append, map_append, append_assoc]
  exact (hr.append_left _).trans hl

theorem Served.step (hs : a.Served) (s : Section) :
    (a.step s).Served ∧ (s.starts = false → a.Resumes (a.step s)) := by
  have hres := hs.reserved_le
  cases s with
  | allocateCapacity op =>
    have hleft := (allocateCapacityLocked_left a.free a.globalArbitrationWaiters op).2
    exact ⟨⟨hs.sorted, hs.once, hs.enough, Nat.le_trans hleft hres⟩, fun _ => .refl⟩
  | startAndWaitGlobalArbitration op =>
    have hleft := (allocateCapacityLocked_left a.free a.globalArbitrationWaiters op.toCapacityRequest).2
    refine ⟨?_, nofun⟩
    simp only [SharedArbitrator.step]
    split_ifs with hw
    · exact hs
    · obtain ⟨hp, hso⟩ := emplace_spec (by simpa using hw) hs.sorted
      exact ⟨hso, ((hs.once.cons op).trans perm_middle.symm).trans (hp.symm.append_left _), hs.enough,
        Nat.le_trans hleft hres⟩
    · exact ⟨hs.sorted, hs.once, hs.enough, Nat.le_trans hleft hres⟩
  | freeCapacity bytes =>
    have hfreed : a.free.reserved + min bytes (a.reservedCapacity - a.free.reserved) ≤ a.reservedCapacity := by omega
    simp only [SharedArbitrator.step]
    split_ifs
    · exact ⟨hs, fun _ => .refl⟩
    · exact ⟨⟨hs.sorted, hs.once, hs.enough, hfreed⟩, fun _ => .refl⟩
    · obtain ⟨hsp, hen, -, hleft, -⟩ := resume_spec _ a.globalArbitrationWaiters
      refine ⟨⟨?_, ?_, ?_, Nat.le_trans hleft hfreed⟩, fun _ => ⟨_, rfl, ?_⟩⟩
      · exact (pairwise_append.mp (hsp.symm ▸ hs.sorted)).2.1
      · rw [map_append, append_assoc, hsp]
        exact hs.once
      · have hb := hs.enough
        grind
      · rw [filter_eq_self.mpr (by simpa using fun op b h => (hen (op, b) h).1), hsp]
  | removeGlobalArbitrationWaiter id =>
    simp only [SharedArbitrator.step]
    split
    · exact ⟨hs, fun _ => .refl⟩
    · rename_i op hf
      have hm := mem_of_find?_eq_some hf
      refine ⟨⟨hs.sorted.sublist erase_sublist, ?_, ?_, hres⟩, fun _ => ⟨_, rfl, by simp [erase_sublist]⟩⟩
      · rw [map_append, append_assoc]
        exact hs.once.trans ((perm_cons_erase hm).append_left _)
      · have hb := hs.enough
        grind

/-- Freed capacity has gone to the oldest waiters, as long as they fit. -/
def ResumesOldest (a : SharedArbitrator) (bytes : ℕ) (after : SharedArbitrator) : Prop :=
  ∃ resumed, after.fulfilled = a.fulfilled ++ resumed ∧
    resumed.map Prod.fst ++ after.globalArbitrationWaiters = a.globalArbitrationWaiters ∧
    (∀ out ∈ resumed, out.2 ≠ 0 ∧ out.1.requestBytes ≤ out.2) ∧
    (resumed.map Prod.snd).sum + (after.free.nonReserved + after.free.reserved) =
      a.free.nonReserved + a.free.reserved + bytes ∧
    ∀ oldest ∈ after.globalArbitrationWaiters.head?, ¬after.free.Fits oldest.toCapacityRequest

theorem Served.freeCapacity (hs : a.Served) {bytes : ℕ} (hpos : 0 < bytes)
    (hle : a.free.nonReserved + a.free.reserved + bytes ≤ a.capacity) :
    ResumesOldest a bytes (a.step (.freeCapacity bytes)) := by
  have hres := hs.reserved_le
  simp only [SharedArbitrator.step]
  rw [if_neg (by omega), if_neg (by omega)]
  obtain ⟨hw, hen, hsum, -, hold⟩ := resume_spec ⟨a.free.reserved + min bytes (a.reservedCapacity - a.free.reserved),
    a.free.nonReserved + (bytes - min bytes (a.reservedCapacity - a.free.reserved))⟩ a.globalArbitrationWaiters
  refine ⟨_, rfl, hw, hen, hsum.trans ?_, hold⟩
  dsimp only
  omega

end SharedArbitrator

end Bolt.Memory
