import Mathlib.Algebra.Order.BigOperators.Group.Finset
import Mathlib.Algebra.Order.Ring.Int

/-!
# Ledgers

A ledger holds an amount for each of finitely many open accounts. An account may be open
with nothing in it; an account that is not open holds nothing.
-/

namespace Bolt.Lib.Ledgers

open Function Finset

/-- What each of finitely many accounts holds. -/
structure Ledger (κ : Type) where
  accounts : Finset κ
  held : κ → ℤ
  held_eq_zero : ∀ k, k ∉ accounts → held k = 0

namespace Ledger

variable {κ : Type} [DecidableEq κ]

def empty : Ledger κ where
  accounts := ∅
  held _ := 0
  held_eq_zero _ _ := rfl

def enter (ledger : Ledger κ) (k : κ) : Ledger κ where
  accounts := insert k ledger.accounts
  held := ledger.held
  held_eq_zero j hj := ledger.held_eq_zero j fun h => hj (mem_insert_of_mem h)

/-- Adds an amount to an account, which is opened if need be. -/
def add (ledger : Ledger κ) (k : κ) (amount : ℤ) : Ledger κ where
  accounts := insert k ledger.accounts
  held := update ledger.held k (ledger.held k + amount)
  held_eq_zero j hj := by
    rw [mem_insert, not_or] at hj
    rw [update_of_ne hj.1]
    exact ledger.held_eq_zero j hj.2

def close (ledger : Ledger κ) (k : κ) : Ledger κ where
  accounts := ledger.accounts.erase k
  held := update ledger.held k 0
  held_eq_zero j hj := by
    by_cases hjk : j = k
    · rw [hjk, update_self]
    · rw [update_of_ne hjk]
      exact ledger.held_eq_zero j fun h => hj (mem_erase_of_ne_of_mem hjk h)

def total (ledger : Ledger κ) : ℤ := ∑ k ∈ ledger.accounts, ledger.held k

variable (ledger : Ledger κ)

@[simp] theorem held_enter (k : κ) : (ledger.enter k).held = ledger.held := rfl

@[simp] theorem accounts_enter (k : κ) : (ledger.enter k).accounts = insert k ledger.accounts := rfl

@[simp] theorem accounts_add (k : κ) (amount : ℤ) : (ledger.add k amount).accounts = insert k ledger.accounts := rfl

@[simp] theorem held_add_self (k : κ) (amount : ℤ) : (ledger.add k amount).held k = ledger.held k + amount :=
  update_self _ _ _

theorem held_add_of_ne {j k : κ} (hne : j ≠ k) (amount : ℤ) : (ledger.add k amount).held j = ledger.held j :=
  update_of_ne hne _ _

@[simp] theorem accounts_close (k : κ) : (ledger.close k).accounts = ledger.accounts.erase k := rfl

@[simp] theorem held_close_self (k : κ) : (ledger.close k).held k = 0 :=
  update_self _ _ _

theorem held_close_of_ne {j k : κ} (hne : j ≠ k) : (ledger.close k).held j = ledger.held j :=
  update_of_ne hne _ _

@[simp] theorem total_enter (k : κ) : (ledger.enter k).total = ledger.total :=
  sum_insert_of_eq_zero_if_notMem fun h => ledger.held_eq_zero k h

@[simp] theorem total_add (k : κ) (amount : ℤ) : (ledger.add k amount).total = ledger.total + amount := by
  have hr : ∑ j ∈ (insert k ledger.accounts).erase k, update ledger.held k (ledger.held k + amount) j =
      ∑ j ∈ (insert k ledger.accounts).erase k, ledger.held j :=
    sum_congr rfl fun j hj => update_of_ne (ne_of_mem_erase hj) _ _
  have hb := add_sum_erase _ ledger.held (mem_insert_self k ledger.accounts)
  have ha := add_sum_erase _ (update ledger.held k (ledger.held k + amount))
    (mem_insert_self k ledger.accounts)
  have hen := ledger.total_enter k
  rw [update_self, hr] at ha
  simp only [total, enter] at hen
  simp only [total, add]
  omega

@[simp] theorem total_close (k : κ) : (ledger.close k).total = ledger.total - ledger.held k := by
  have hr : ∑ j ∈ ledger.accounts.erase k, update ledger.held k 0 j =
      ∑ j ∈ ledger.accounts.erase k, ledger.held j :=
    sum_congr rfl fun j hj => update_of_ne (ne_of_mem_erase hj) _ _
  simp only [total, close]
  rw [hr]
  by_cases hk : k ∈ ledger.accounts
  · rw [← add_sum_erase _ ledger.held hk]
    omega
  · rw [erase_eq_of_notMem hk, ledger.held_eq_zero k hk]
    omega

end Ledger

end Bolt.Lib.Ledgers
