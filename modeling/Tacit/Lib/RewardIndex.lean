import Mathlib.Algebra.BigOperators.Ring.Finset
import Mathlib.Algebra.Order.BigOperators.Group.Finset
import Mathlib.Tactic.Common
import Mathlib.Tactic.Ring
/-!
# Rewards shared out by an index

A reward that streams to many positions is kept as one growing index, the reward of one share so far; a position
remembers the index it was last settled at. The ledger carries the one fact a program must not lose, that no
position is ahead of the index. What all positions are owed is then the index times the shares less the debt, the
shares at the index they entered (`owed_add_debt`), and each operation moves it by an exact amount.
-/
namespace Tacit

open Finset

/-- The open positions, the shares of each, the index each was settled at, and the index now. -/
structure RewardLedger (κ : Type) where
  live : Finset κ
  shares : κ → Nat
  entry : κ → Nat
  index : Nat
  entry_le : ∀ k ∈ live, entry k ≤ index

namespace RewardLedger

variable {κ : Type} (L : RewardLedger κ)

def total : Nat := ∑ k ∈ L.live, L.shares k

def debt : Nat := ∑ k ∈ L.live, L.shares k * L.entry k

/-- What the index has moved since the position was settled, on all its shares. -/
def due (k : κ) : Nat := L.shares k * (L.index - L.entry k)

def owed : Nat := ∑ k ∈ L.live, L.due k

/-- No position. -/
def empty (shares : κ → Nat) (index : Nat) : RewardLedger κ where
  live := ∅
  shares := shares
  entry := fun _ => 0
  index := index
  entry_le := by simp

@[simp] theorem empty_total (shares : κ → Nat) (index : Nat) : (empty shares index).total = 0 := by simp [empty, total]

@[simp] theorem empty_debt (shares : κ → Nat) (index : Nat) : (empty shares index).debt = 0 := by simp [empty, debt]

@[simp] theorem empty_owed (shares : κ → Nat) (index : Nat) : (empty shares index).owed = 0 := by simp [empty, owed]

theorem due_add_debt {k : κ} (hk : k ∈ L.live) : L.due k + L.shares k * L.entry k = L.shares k * L.index := by
  rw [due, ← Nat.mul_add, Nat.sub_add_cancel (L.entry_le k hk)]

theorem owed_add_debt : L.owed + L.debt = L.total * L.index := by
  rw [owed, debt, total, ← sum_add_distrib, sum_mul]
  exact sum_congr rfl fun k hk => L.due_add_debt hk

theorem debt_le : L.debt ≤ L.total * L.index := by
  have := L.owed_add_debt
  omega

variable {L} {k : κ}

theorem shares_le_total (hk : k ∈ L.live) : L.shares k ≤ L.total :=
  single_le_sum (f := L.shares) (fun _ _ => Nat.zero_le _) hk

theorem le_debt (hk : k ∈ L.live) : L.shares k * L.entry k ≤ L.debt :=
  single_le_sum (f := fun k => L.shares k * L.entry k) (fun _ _ => Nat.zero_le _) hk

theorem due_le_owed (hk : k ∈ L.live) : L.due k ≤ L.owed :=
  single_le_sum (f := L.due) (fun _ _ => Nat.zero_le _) hk

/-- Nobody is owed anything by an empty ledger. -/
theorem owed_eq_zero (h : L.total = 0) : L.owed = 0 := by
  have := L.owed_add_debt
  rw [h, Nat.zero_mul] at this
  omega

/-- Whole rewards, each rounded down by itself, stay below the rounded sum. -/
theorem sum_due_div_le (P : Nat) : ∑ k ∈ L.live, L.due k / P ≤ L.owed / P := by
  rcases Nat.eq_zero_or_pos P with rfl | hP
  · simp
  · rw [Nat.le_div_iff_mul_le hP, sum_mul]
    exact sum_le_sum fun k _ => Nat.div_mul_le_self _ _

/-! ## The index grows -/

/-- The index grows by `n`. -/
def raise (L : RewardLedger κ) (n : Nat) : RewardLedger κ where
  live := L.live
  shares := L.shares
  entry := L.entry
  index := L.index + n
  entry_le := fun k hk => (L.entry_le k hk).trans (Nat.le_add_right _ _)

@[simp] theorem raise_live (n : Nat) : (L.raise n).live = L.live := rfl

@[simp] theorem raise_shares (n : Nat) : (L.raise n).shares = L.shares := rfl

@[simp] theorem raise_entry (n : Nat) : (L.raise n).entry = L.entry := rfl

@[simp] theorem raise_index (n : Nat) : (L.raise n).index = L.index + n := rfl

@[simp] theorem raise_total (n : Nat) : (L.raise n).total = L.total := rfl

@[simp] theorem raise_debt (n : Nat) : (L.raise n).debt = L.debt := rfl

@[simp] theorem raise_zero : L.raise 0 = L := rfl

theorem raise_owed (n : Nat) : (L.raise n).owed = L.owed + L.total * n := by
  have h := L.owed_add_debt
  have h' := (L.raise n).owed_add_debt
  simp only [raise_total, raise_debt, raise_index, Nat.mul_add] at h'
  omega

theorem owed_div_le_raise (n P : Nat) : L.owed / P ≤ (L.raise n).owed / P := by
  refine Nat.div_le_div_right ?_
  rw [raise_owed]
  exact Nat.le_add_right _ _

/-- An index that grows by `n` units, rounded down over the shares, hands out at most `n`. -/
theorem raise_owed_div_le {P n : Nat} (hP : 0 < P) : (L.raise (P * n / L.total)).owed / P ≤ L.owed / P + n := by
  have hmul : L.total * (P * n / L.total) ≤ P * n := Nat.mul_div_le _ _
  calc (L.raise (P * n / L.total)).owed / P = (L.owed + L.total * (P * n / L.total)) / P := by rw [raise_owed]
    _ ≤ (L.owed + P * n) / P := Nat.div_le_div_right (Nat.add_le_add_left hmul _)
    _ = L.owed / P + n := Nat.add_mul_div_left _ _ hP

/-! ## A position joins, is settled, leaves -/

variable [DecidableEq κ]

/-- A new position enters at the index now. -/
def join (L : RewardLedger κ) (k : κ) : RewardLedger κ where
  live := insert k L.live
  shares := L.shares
  entry := Function.update L.entry k L.index
  index := L.index
  entry_le := by
    intro j hj
    by_cases h : j = k
    · simp [h]
    · rw [Function.update_of_ne h]
      exact L.entry_le j ((mem_insert.1 hj).resolve_left h)

@[simp] theorem join_entry_self : (L.join k).entry k = L.index := Function.update_self _ _ _

theorem join_entry_of_ne {j : κ} (h : j ≠ k) : (L.join k).entry j = L.entry j := Function.update_of_ne h _ _

theorem sum_update_of_notMem {α : Type} [AddCommMonoid α] {s : Finset κ} (hk : k ∉ s) (e : κ → Nat) (i : Nat)
    (f : κ → Nat → α) : ∑ j ∈ s, f j (Function.update e k i j) = ∑ j ∈ s, f j (e j) := by
  refine sum_congr rfl fun j hj => ?_
  rw [Function.update_of_ne (ne_of_mem_of_not_mem hj hk)]

theorem join_total (hk : k ∉ L.live) : (L.join k).total = L.total + L.shares k := by
  rw [total, join, sum_insert hk, Nat.add_comm]
  rfl

theorem join_debt (hk : k ∉ L.live) : (L.join k).debt = L.debt + L.shares k * L.index := by
  rw [debt, show (L.join k).live = insert k L.live from rfl, sum_insert hk, Nat.add_comm]
  simp only [join, Function.update_self]
  rw [sum_update_of_notMem hk _ _ fun j e => L.shares j * e]
  rfl

theorem join_owed (hk : k ∉ L.live) : (L.join k).owed = L.owed := by
  have h := L.owed_add_debt
  have h' := (L.join k).owed_add_debt
  rw [join_total hk, join_debt hk, show (L.join k).index = L.index from rfl, Nat.add_mul] at h'
  omega

/-- The shares of a position that is not open are set. -/
def assign (L : RewardLedger κ) (k : κ) (n : Nat) : RewardLedger κ := { L with shares := Function.update L.shares k n }

@[simp] theorem assign_live {n : Nat} : (L.assign k n).live = L.live := rfl

@[simp] theorem assign_shares {n : Nat} : (L.assign k n).shares = Function.update L.shares k n := rfl

@[simp] theorem assign_entry {n : Nat} : (L.assign k n).entry = L.entry := rfl

@[simp] theorem assign_index {n : Nat} : (L.assign k n).index = L.index := rfl

theorem assign_total {n : Nat} (hk : k ∉ L.live) : (L.assign k n).total = L.total :=
  sum_update_of_notMem hk L.shares n fun _ w => w

theorem assign_debt {n : Nat} (hk : k ∉ L.live) : (L.assign k n).debt = L.debt :=
  sum_update_of_notMem hk L.shares n fun j w => w * L.entry j

theorem assign_owed {n : Nat} (hk : k ∉ L.live) : (L.assign k n).owed = L.owed :=
  sum_update_of_notMem hk L.shares n fun j w => w * (L.index - L.entry j)

/-- A position takes what it is due and is stamped with the index now. -/
def settle (L : RewardLedger κ) (k : κ) : RewardLedger κ where
  live := L.live
  shares := L.shares
  entry := Function.update L.entry k L.index
  index := L.index
  entry_le := by
    intro j hj
    by_cases h : j = k
    · simp [h]
    · rw [Function.update_of_ne h]
      exact L.entry_le j hj

@[simp] theorem settle_entry_self : (L.settle k).entry k = L.index := Function.update_self _ _ _

theorem settle_entry_of_ne {j : κ} (h : j ≠ k) : (L.settle k).entry j = L.entry j := Function.update_of_ne h _ _

@[simp] theorem settle_total : (L.settle k).total = L.total := rfl

theorem settle_debt (hk : k ∈ L.live) : (L.settle k).debt = L.debt + L.due k := by
  have h := L.due_add_debt hk
  rw [debt, debt, show (L.settle k).live = L.live from rfl, ← add_sum_erase _ _ hk, ← add_sum_erase _ (fun k => _) hk]
  simp only [settle, Function.update_self]
  rw [sum_update_of_notMem (notMem_erase k _) _ _ fun j e => L.shares j * e]
  omega

@[simp] theorem settle_due : (L.settle k).due k = 0 := by
  rw [due, settle_entry_self, show (L.settle k).index = L.index from rfl, Nat.sub_self, Nat.mul_zero]

theorem settle_owed (hk : k ∈ L.live) : (L.settle k).owed + L.due k = L.owed := by
  have h := L.owed_add_debt
  have h' := (L.settle k).owed_add_debt
  rw [settle_debt hk, settle_total, show (L.settle k).index = L.index from rfl] at h'
  omega

/-- The floor of what a position is due fits in the floor of what all are. -/
theorem due_div_add_settle_owed_div_le (hk : k ∈ L.live) (P : Nat) :
    L.due k / P + (L.settle k).owed / P ≤ L.owed / P := by
  rcases Nat.eq_zero_or_pos P with rfl | hP
  · simp
  · have hsum : (L.settle k).owed + P * (L.due k / P) ≤ L.owed := by
      have := Nat.mul_div_le (L.due k) P
      have := settle_owed hk
      omega
    calc L.due k / P + (L.settle k).owed / P = ((L.settle k).owed + P * (L.due k / P)) / P := by
          rw [Nat.add_mul_div_left _ _ hP, Nat.add_comm]
      _ ≤ L.owed / P := Nat.div_le_div_right hsum

/-- A position leaves, and what it was due with it. -/
def leave (L : RewardLedger κ) (k : κ) : RewardLedger κ where
  live := L.live.erase k
  shares := L.shares
  entry := L.entry
  index := L.index
  entry_le := fun j hj => L.entry_le j (mem_of_mem_erase hj)

theorem leave_total (hk : k ∈ L.live) : (L.leave k).total + L.shares k = L.total := by
  rw [Nat.add_comm]
  exact add_sum_erase _ _ hk

theorem leave_debt (hk : k ∈ L.live) : (L.leave k).debt + L.shares k * L.entry k = L.debt := by
  rw [Nat.add_comm]
  exact add_sum_erase _ (fun k => L.shares k * L.entry k) hk

theorem leave_owed (hk : k ∈ L.live) : (L.leave k).owed + L.due k = L.owed := by
  rw [Nat.add_comm]
  exact add_sum_erase _ (fun k => L.due k) hk

end RewardLedger

end Tacit
