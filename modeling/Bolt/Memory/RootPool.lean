import Mathlib.Order.Lattice

/-!
# Shrinking a root pool

`MemoryPoolImpl` keeps the capacity and the reservation of a root pool as signed 64-bit
integers and compares them with unsigned sizes. Under arbitration a reservation may
exceed the capacity, and `shrink` then reads their difference as an unsigned number.
-/

namespace Bolt.Memory

structure RootPool where
  capacity : Int64 := 0
  reservationBytes : Int64 := 0
deriving DecidableEq

def kMaxMemory : Int64 := Int64.maxValue

namespace RootPool

variable (pool : RootPool) (targetBytes : UInt64)

def maybeIncrementReservation (size : UInt64) (underMemoryArbitration : Bool) : Bool × RootPool :=
  if pool.capacity.toUInt64 < pool.reservationBytes.toUInt64 + size ∧ !underMemoryArbitration then (false, pool)
  else (true, { pool with reservationBytes := pool.reservationBytes + size.toInt64 })

/-- `shrink`, which fails a check for a pool without a capacity limit. -/
def shrink : Option (ℕ × RootPool) :=
  if pool.capacity = kMaxMemory then none
  else
    let freeBytes := max 0 (pool.capacity - pool.reservationBytes).toUInt64.toNat
    let freeBytes := if targetBytes ≠ 0 then min targetBytes.toNat freeBytes else freeBytes
    some (freeBytes, { pool with capacity := pool.capacity - Int64.ofNat freeBytes })

/-- What `shrink` returns is what it took from the capacity, and it took free bytes only. -/
def KeepsReservations : Prop :=
  ∀ freed after, pool.shrink targetBytes = some (freed, after) →
    freed = pool.capacity.toInt - after.capacity.toInt ∧
      freed ≤ max 0 (pool.capacity.toInt - pool.reservationBytes.toInt) ∧
      (targetBytes ≠ 0 → freed ≤ targetBytes.toNat) ∧ after.capacity ≤ pool.capacity

/-- The difference as `shrink` reads it. -/
theorem toNat_toUInt64_sub (a b : Int64) : ((a - b).toUInt64.toNat : ℤ) = (a.toInt - b.toInt) % 18446744073709551616 := by
  have hs : (a - b).toInt = ((a - b).toUInt64.toNat : ℤ).bmod (2 ^ 64) := (a - b).toBitVec.toInt_eq_toNat_bmod
  have hlt := (a - b).toUInt64.toNat_lt
  rw [Int64.toInt_sub, Int.bmod_def, Int.bmod_def] at hs
  omega

/-- Exactly a pool whose capacity covers its reservation is shrunk as it should be. -/
theorem keepsReservations_iff : (pool.shrink targetBytes = none ↔ pool.capacity = kMaxMemory) ∧
      (pool.KeepsReservations targetBytes ↔ pool.capacity = kMaxMemory ∨ pool.reservationBytes ≤ pool.capacity) := by
  by_cases hmax : pool.capacity = kMaxMemory
  · simp [shrink, KeepsReservations, hmax]
  · have hdifference := toNat_toUInt64_sub pool.capacity pool.reservationBytes
    have hcapacity := And.intro pool.capacity.le_toInt pool.capacity.toInt_lt
    have hreservation := And.intro pool.reservationBytes.le_toInt pool.reservationBytes.toInt_lt
    have hzero : targetBytes = 0 ↔ targetBytes.toNat = 0 := UInt64.toNat_inj.symm
    simp only [KeepsReservations, shrink, hmax, if_false, false_or, reduceCtorEq, Option.some.injEq, Prod.mk.injEq,
      Int64.le_iff_toInt_le, true_and, ne_eq, hzero]
    constructor
    · intro hkeeps
      have hle := (hkeeps _ _ ⟨rfl, rfl⟩).2.1
      split at hle <;> omega
    · intro hcovered freed after hshrink
      obtain ⟨rfl, rfl⟩ := hshrink
      have hsize : Int64.size = 2 ^ 64 := rfl
      rw [Int64.toInt_sub, Int64.toInt_ofNat', Int.sub_bmod_bmod, Int.bmod_eq_of_le] <;> split <;> omega

/-- A new pool with 20 bytes reserved under arbitration: its capacity goes below zero or
is raised to the reservation. -/
theorem overReserved_shrink :
    let overReserved := (({} : RootPool).maybeIncrementReservation 20 true).2
    overReserved.shrink 5 = some (5, { overReserved with capacity := -5 }) ∧
      overReserved.shrink 0 = some (18446744073709551596, { overReserved with capacity := 20 }) := by
  decide

end RootPool

end Bolt.Memory
