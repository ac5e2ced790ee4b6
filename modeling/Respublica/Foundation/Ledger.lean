import Mathlib.Algebra.BigOperators.Group.Finset.Piecewise
import Mathlib.Algebra.Order.BigOperators.Group.Finset
import Mathlib.Data.Fintype.Basic
import Mathlib.Logic.Relation

/-!
# Ledgers of one asset

Balances and a total supply, in natural numbers. A step is a transfer, a mint or a burn
in which every number written is the exact sum or difference and stays below a bound, or
nothing at all. Every step keeps the balances adding up to the supply.
-/

namespace Respublica.Foundation

/-- What each account holds, and how much there is. -/
@[ext] structure Ledger (Account : Type) where
  balance : Account → ℕ
  supply : ℕ

namespace Ledger

variable {Account : Type} [DecidableEq Account]

/-- Credit an account. -/
def credit (ledger : Ledger Account) (account : Account) (value : ℕ) : Ledger Account where
  balance := Function.update ledger.balance account (ledger.balance account + value)
  supply := ledger.supply

/-- Debit an account. -/
def debit (ledger : Ledger Account) (account : Account) (value : ℕ) : Ledger Account where
  balance := Function.update ledger.balance account (ledger.balance account - value)
  supply := ledger.supply

variable {account : Account} {bound : ℕ} {before after ledger : Ledger Account}

theorem balance_debit_of_ne (ledger : Ledger Account) {other : Account} (value : ℕ)
    (apart : other ≠ account) : (ledger.debit account value).balance other = ledger.balance other :=
  Function.update_of_ne apart _ _

/-- Set the supply. -/
def withSupply (ledger : Ledger Account) (supply : ℕ) : Ledger Account :=
  { ledger with supply := supply }

/-- What may happen to a ledger whose numbers stay below `bound`. -/
inductive Step (bound : ℕ) (ledger : Ledger Account) : Ledger Account → Prop where
  | idle : Step bound ledger ledger
  | transfer (source target : Account) (value : ℕ) (different : source ≠ target)
      (covered : value ≤ ledger.balance source) (fits : ledger.balance target + value < bound) :
      Step bound ledger ((ledger.debit source value).credit target value)
  | mint (target : Account) (value : ℕ) (fits : ledger.supply + value < bound)
      (balanceFits : ledger.balance target + value < bound) :
      Step bound ledger ((ledger.withSupply (ledger.supply + value)).credit target value)
  | burn (source : Account) (value : ℕ) (covered : value ≤ ledger.balance source)
      (supplied : value ≤ ledger.supply) :
      Step bound ledger ((ledger.withSupply (ledger.supply - value)).debit source value)

/-- Any number of such steps. -/
abbrev Steps (bound : ℕ) : Ledger Account → Ledger Account → Prop :=
  Relation.ReflTransGen (Step bound)

variable [Fintype Account]

/-- The balances add up to the supply. -/
def Conserved (ledger : Ledger Account) : Prop := ∑ account, ledger.balance account = ledger.supply

/-- A credit adds to the sum. -/
theorem sum_credit (ledger : Ledger Account) (account : Account) (value : ℕ) :
    ∑ other, (ledger.credit account value).balance other =
      (∑ other, ledger.balance other) + value := by
  have split := Finset.add_sum_erase Finset.univ ledger.balance (Finset.mem_univ account)
  simp only [credit, Finset.sum_update_of_mem (Finset.mem_univ account), ← Finset.erase_eq]
  omega

/-- A debit takes from the sum. -/
theorem sum_debit (ledger : Ledger Account) {value : ℕ} (covered : value ≤ ledger.balance account) :
    ∑ other, (ledger.debit account value).balance other + value = ∑ other,
      ledger.balance other := by
  have split := Finset.add_sum_erase Finset.univ ledger.balance (Finset.mem_univ account)
  simp only [debit, Finset.sum_update_of_mem (Finset.mem_univ account), ← Finset.erase_eq]
  omega

/-- A step of a conserved ledger gives a conserved ledger. -/
theorem Step.conserved (step : Step bound before after) (conserved : before.Conserved) :
    after.Conserved := by
  unfold Conserved at conserved ⊢
  cases step with
  | idle => exact conserved
  | transfer source target value different covered fits =>
    have debited := sum_debit before covered
    rw [sum_credit]
    change _ = before.supply
    omega
  | mint target value fits balanceFits =>
    rw [sum_credit]
    change (∑ other, before.balance other) + value = before.supply + value
    rw [conserved]
  | burn source value covered supplied =>
    have debited := sum_debit (before.withSupply (before.supply - value)) covered
    change _ = before.supply - value
    change _ = ∑ other, before.balance other at debited
    omega

/-- Steps conserve coins. -/
theorem Steps.conserved (steps : Steps bound before after) (conserved : before.Conserved) :
    after.Conserved := by
  induction steps with
  | refl => exact conserved
  | tail _ step ih => exact step.conserved ih

omit [DecidableEq Account] in
/-- No account holds more than there is. -/
theorem Conserved.balance_le (conserved : ledger.Conserved) (account : Account) :
    ledger.balance account ≤ ledger.supply := by
  rw [← conserved]
  exact Finset.single_le_sum (fun _ _ => Nat.zero_le _) (Finset.mem_univ account)

/-- Two accounts together hold no more than there is. -/
theorem Conserved.add_balance_le (conserved : ledger.Conserved) {left right : Account}
    (different : left ≠ right) :
    ledger.balance left + ledger.balance right ≤ ledger.supply := by
  have emptied := sum_debit ledger (Nat.le_refl (ledger.balance left))
  have kept := ledger.balance_debit_of_ne (ledger.balance left) different.symm
  have bounded : (ledger.debit left (ledger.balance left)).balance right ≤
      ∑ other, (ledger.debit left (ledger.balance left)).balance other :=
    Finset.single_le_sum (fun _ _ => Nat.zero_le _) (Finset.mem_univ right)
  rw [← conserved]
  omega

end Ledger

end Respublica.Foundation
