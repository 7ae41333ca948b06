import Tacit.Collateral.Engine
import Tacit.Lib.RewardIndex
/-!
# Every unit of the fee budget has a claimant

The savings rate is a `RewardLedger` of its receipts. The budget is what the ledger owes, in whole units, and the
surplus (`Savings.Holds`). Each operation books the change of the one floor as surplus, so the identity is exact; that
no difference underflows is an inequality between floors, one for each operation: a distribution grants at most the fee,
and a harvest consumes at least its own floor.
-/
namespace Tacit

open Prog RewardLedger

namespace CollateralEngine

/-- What the proofs use of the library: a result is the quotient, rounded down or up. -/
structure FixedPointMath.Exact (M : FixedPointMath) : Prop where
  fullMulDiv_eq : ∀ {x y d n}, M.fullMulDiv x y d = some n → n = x * y / d
  le_fullMulDivUp : ∀ {x y d n}, M.fullMulDivUp x y d = some n → x * y ≤ n * d

variable {M : FixedPointMath} {v u : Savings} {L : RewardLedger Nat}

/-! ## Checked steps -/

section

variable {σ : Type} {A : Prop} {s : σ} {E : EngineError → σ → Prop} {Q : Nat → σ → Prop} {a b : Nat}

theorem wp_mul : wp A (mul a b) s E Q ↔ (2 ^ 256 ≤ a * b → E (.panic .mul) s) ∧ (a * b < 2 ^ 256 → Q (a * b) s) :=
  wp_uint256

theorem wp_add : wp A (add a b) s E Q ↔ (2 ^ 256 ≤ a + b → E (.panic .add) s) ∧ (a + b < 2 ^ 256 → Q (a + b) s) :=
  wp_uint256

theorem wp_sub (h : b ≤ a) : wp A (sub a b) s E Q ↔ Q (a - b) s := wp_uintSub h

theorem wp_fullMulDiv (hM : M.Exact) {x y d : Nat} (he : E .mathFailed s) (hq : Q (x * y / d) s) :
    wp A (fullMulDiv M x y d) s E Q := by
  rw [fullMulDiv, wp_orThrow]
  refine ⟨fun _ => he, fun n hn => ?_⟩
  rw [hM.fullMulDiv_eq hn]
  exact hq

end

/-- An error that is neither an underflow nor the same-settle assertion. -/
def Fair (e : EngineError) : Prop := e ≠ .panic .sub ∧ e ≠ .sameSettleSavingsBondAndFee

/-- An error of checked arithmetic, or of the library. -/
def Overflow (e : EngineError) : Prop := e = .panic .mul ∨ e = .panic .add ∨ e = .mathFailed

theorem Overflow.fair {e : EngineError} (h : Overflow e) : Fair e := by
  rcases h with rfl | rfl | rfl <;> simp [Fair]

/-! ## The invariant -/

/-- The stamps are the entries of the ledger. -/
structure Savings.Books (v : Savings) (L : RewardLedger Nat) : Prop where
  stamped : ∀ w, v.savingsEntryStamped w = true ↔ w ∈ L.live
  entry : ∀ w ∈ L.live, v.savingsEntryRps w = L.entry w
  index : L.index = v.savingsRps
  total : L.total = v.totalSavingsShares
  debt : L.debt = v.totalSavingsRewardDebt

structure Savings.Holds (v : Savings) (L : RewardLedger Nat) : Prop extends v.Books L where
  budget : v.feeBudgetCusd = L.owed / savingsPrecision + v.surplusFeeCusd
  budget_lt : v.feeBudgetCusd < 2 ^ 256
  pending_le : v.pendingSurplusDraw.amount ≤ v.surplusFeeCusd

namespace Savings.Books

theorem owed_add_debt (h : v.Books L) : L.owed + v.totalSavingsRewardDebt = v.savingsRps * v.totalSavingsShares := by
  rw [← h.debt, ← h.total, ← h.index, L.owed_add_debt, Nat.mul_comm]

/-- The view reads three fields only. -/
theorem outstanding_of_debt (h : v.Books L) (hr : u.savingsRps = v.savingsRps)
    (ht : u.totalSavingsShares = v.totalSavingsShares) (hd : u.totalSavingsRewardDebt = v.totalSavingsRewardDebt)
    {A : Prop} {E : EngineError → Savings → Prop} {Q : Nat → Savings → Prop} :
    wp A outstandingSavingsReward u E Q ↔ (2 ^ 256 ≤ u.savingsRps * u.totalSavingsShares → E (.panic .mul) u) ∧
      (u.savingsRps * u.totalSavingsShares < 2 ^ 256 → Q (L.owed / savingsPrecision) u) := by
  have hsum := h.owed_add_debt
  rw [← hr, ← ht, ← hd] at hsum
  rw [outstandingSavingsReward, wp_bind, wp_get, wp_bind, wp_mul, wp_bind, wp_sub (by omega), wp_pure, ← hsum,
    Nat.add_sub_cancel]

/-- The view says what the receipts are owed, unless the product is too large for it. -/
theorem outstanding (h : v.Books L) {A : Prop} {E : EngineError → Savings → Prop} {Q : Nat → Savings → Prop} :
    wp A outstandingSavingsReward v E Q ↔ (2 ^ 256 ≤ v.savingsRps * v.totalSavingsShares → E (.panic .mul) v) ∧
      (v.savingsRps * v.totalSavingsShares < 2 ^ 256 → Q (L.owed / savingsPrecision) v) := by
  exact h.outstanding_of_debt rfl rfl rfl

theorem entry_le (h : v.Books L) {w : Nat} (hw : w ∈ L.live) : v.savingsEntryRps w ≤ v.savingsRps := by
  rw [h.entry w hw, ← h.index]
  exact L.entry_le w hw

theorem due_eq (h : v.Books L) {w : Nat} (hw : w ∈ L.live) :
    L.shares w * (v.savingsRps - v.savingsEntryRps w) = L.due w := by
  rw [due, h.index, h.entry w hw]

theorem raise (h : v.Books L) (n : Nat) : ({ v with savingsRps := v.savingsRps + n } : Savings).Books (L.raise n) :=
  { h with index := by rw [raise_index, h.index] }

theorem join (h : v.Books L) {w n : Nat} (hw : v.savingsEntryStamped w ≠ true) :
    ({ v with
      savingsEntryStamped := Function.update v.savingsEntryStamped w true
      savingsEntryRps := Function.update v.savingsEntryRps w v.savingsRps
      totalSavingsShares := v.totalSavingsShares + n
      totalSavingsRewardDebt := v.totalSavingsRewardDebt + n * v.savingsRps } : Savings).Books ((L.assign w n).join w) := by
  have hmem : w ∉ L.live := fun hl => hw ((h.stamped w).2 hl)
  have hmem' : w ∉ (L.assign w n).live := hmem
  have hself : (L.assign w n).shares w = n := Function.update_self _ _ _
  refine ⟨fun x => ?_, fun x hx => ?_, h.index, ?_, ?_⟩
  · simp only [RewardLedger.join, assign_live, Finset.mem_insert]
    rw [← h.stamped x]
    by_cases hx : x = w
    · simp [hx]
    · rw [Function.update_of_ne hx]
      simp [hx]
  · by_cases hx' : x = w
    · subst hx'
      rw [join_entry_self, assign_index, h.index]
      exact Function.update_self _ _ _
    · rw [join_entry_of_ne hx', assign_entry, ← h.entry x ((Finset.mem_insert.1 hx).resolve_left hx')]
      exact Function.update_of_ne hx' _ _
  · rw [join_total hmem', assign_total hmem, h.total, hself]
  · rw [join_debt hmem', assign_debt hmem, h.debt, hself, assign_index, h.index]

theorem settle (h : v.Books L) {w : Nat} (hw : w ∈ L.live) :
    ({ v with
      totalSavingsRewardDebt := v.totalSavingsRewardDebt + L.due w
      savingsEntryRps := Function.update v.savingsEntryRps w v.savingsRps } : Savings).Books (L.settle w) := by
  refine ⟨h.stamped, fun x hx => ?_, h.index, h.total, ?_⟩
  · by_cases hx' : x = w
    · subst hx'
      rw [settle_entry_self, h.index]
      exact Function.update_self _ _ _
    · rw [settle_entry_of_ne hx', ← h.entry x hx]
      exact Function.update_of_ne hx' _ _
  · rw [settle_debt hw, h.debt]

theorem leave (h : v.Books L) {w : Nat} (hw : w ∈ L.live) :
    ({ v with
      totalSavingsRewardDebt := v.totalSavingsRewardDebt - L.shares w * v.savingsEntryRps w
      totalSavingsShares := v.totalSavingsShares - L.shares w
      savingsEntryRps := Function.update v.savingsEntryRps w 0
      savingsEntryStamped := Function.update v.savingsEntryStamped w false } : Savings).Books (L.leave w) := by
  have htot := leave_total hw
  have hdebt := leave_debt hw
  rw [h.total] at htot
  rw [h.debt, ← h.entry w hw] at hdebt
  refine ⟨fun x => ?_, fun x hx => ?_, h.index, ?_, ?_⟩
  · by_cases hx : x = w
    · simp [hx, RewardLedger.leave]
    · simp only [Function.update_of_ne hx, h.stamped x, RewardLedger.leave, Finset.mem_erase, ne_eq, hx, not_false_eq_true,
        true_and]
  · obtain ⟨hne, hmem⟩ := Finset.mem_erase.1 hx
    show Function.update v.savingsEntryRps w 0 x = L.entry x
    rw [Function.update_of_ne hne, h.entry x hmem]
  · show (L.leave w).total = v.totalSavingsShares - L.shares w
    omega
  · show (L.leave w).debt = v.totalSavingsRewardDebt - L.shares w * v.savingsEntryRps w
    omega

end Savings.Books

/-! ## The operations -/

theorem bookSurplusFee_spec (h : v.Holds L) {fee : Nat} :
    wp False (bookSurplusFee fee) v (fun e _ => Fair e)
      (fun _ u => u.Holds L ∧ u.pendingSurplusDraw = v.pendingSurplusDraw ∧ u.feeBudgetCusd = v.feeBudgetCusd + fee) := by
  rw [bookSurplusFee]
  by_cases h0 : fee = 0
  · rw [if_pos h0, wp_pure, h0]
    exact ⟨h, rfl, rfl⟩
  · rw [if_neg h0, wp_bind, wp_get, wp_bind, wp_add]
    refine ⟨fun _ => by simp [Fair], fun hlt => ?_⟩
    rw [wp_bind, wp_add]
    refine ⟨fun _ => by simp [Fair], fun _ => ?_⟩
    rw [wp_bind, wp_add]
    refine ⟨fun _ => by simp [Fair], fun _ => ?_⟩
    rw [wp_modify]
    refine ⟨{ h with budget := ?_, budget_lt := hlt, pending_le := h.pending_le.trans (Nat.le_add_right _ _) }, rfl, rfl⟩
    show v.feeBudgetCusd + fee = _ + (v.surplusFeeCusd + fee)
    rw [h.budget]
    omega

/-- What is distributed goes to the ledger and, for the rest, to the surplus. -/
theorem distribute_spec (hM : M.Exact) (h : v.Books L) {fee : Nat} :
    wp False (distribute M fee) v (fun e _ => Overflow e)
      (fun _ u => ∃ n, u.Books (L.raise n) ∧ u.pendingSurplusDraw = v.pendingSurplusDraw ∧
        u.feeBudgetCusd = v.feeBudgetCusd ∧ v.surplusFeeCusd ≤ u.surplusFeeCusd ∧
        (L.raise n).owed / savingsPrecision + u.surplusFeeCusd = L.owed / savingsPrecision + v.surplusFeeCusd + fee) := by
  rw [distribute, wp_bind, wp_get]
  by_cases h0 : v.totalSavingsShares = 0
  · rw [if_neg (not_not.2 h0), wp_bind, wp_add]
    refine ⟨fun _ => by simp [Overflow], fun _ => ?_⟩
    rw [wp_modify]
    refine ⟨0, { h with }, rfl, rfl, Nat.le_add_right _ _, ?_⟩
    rw [raise_zero, Nat.add_assoc]
  · rw [if_pos h0, wp_bind, h.outstanding]
    refine ⟨fun _ => by simp [Overflow], fun _ => ?_⟩
    rw [wp_bind]
    refine wp_fullMulDiv hM (by simp [Overflow]) ?_
    have hbound := L.raise_owed_div_le (n := fee) (by decide : 0 < savingsPrecision)
    rw [h.total, Nat.mul_comm] at hbound
    generalize fee * savingsPrecision / v.totalSavingsShares = n at hbound
    have hgrow := L.owed_div_le_raise n savingsPrecision
    rw [wp_bind, wp_add]
    refine ⟨fun _ => by simp [Overflow], fun _ => ?_⟩
    rw [wp_bind, wp_modify, wp_bind, (h.raise n).outstanding]
    refine ⟨fun _ => by simp [Overflow], fun _ => ?_⟩
    rw [wp_bind, wp_sub hgrow, wp_bind, wp_sub (by omega), wp_bind, wp_add]
    refine ⟨fun _ => by simp [Overflow], fun _ => ?_⟩
    rw [wp_modify]
    refine ⟨n, { h.raise n with }, rfl, rfl, Nat.le_add_right _ _, ?_⟩
    show (L.raise n).owed / savingsPrecision +
      (v.surplusFeeCusd + (fee - ((L.raise n).owed / savingsPrecision - L.owed / savingsPrecision))) = _
    omega

theorem accrueFee_spec (hM : M.Exact) (h : v.Holds L) {fee : Nat} :
    wp False (accrueFee M false fee) v (fun e _ => Overflow e)
      (fun _ u => ∃ n, u.Holds (L.raise n) ∧ u.pendingSurplusDraw = v.pendingSurplusDraw ∧
        u.feeBudgetCusd = v.feeBudgetCusd + fee) := by
  rw [accrueFee]
  by_cases h0 : fee = 0
  · rw [if_pos h0, wp_pure, h0]
    exact ⟨0, h, rfl, rfl⟩
  · rw [if_neg h0, wp_bind, wp_check]
    refine ⟨fun hne => absurd hne (by decide), fun _ => ?_⟩
    rw [wp_bind, wp_get, wp_bind, wp_add]
    refine ⟨fun _ => by simp [Overflow], fun hlt => ?_⟩
    rw [wp_bind, wp_add]
    refine ⟨fun _ => by simp [Overflow], fun _ => ?_⟩
    rw [wp_bind, wp_modify]
    have hstart : ({ v with
        feeBudgetCusd := v.feeBudgetCusd + fee
        feesAccruedCusd := v.feesAccruedCusd + fee } : Savings).Books L := { h.toBooks with }
    refine wp_mono (distribute_spec hM hstart) id (fun _ _ he => he) ?_
    rintro _ u ⟨n, hbooks, hpending, hbudget, hsurplus, hsum⟩
    change u.pendingSurplusDraw = v.pendingSurplusDraw at hpending
    change u.feeBudgetCusd = v.feeBudgetCusd + fee at hbudget
    change v.surplusFeeCusd ≤ u.surplusFeeCusd at hsurplus
    change _ = L.owed / savingsPrecision + v.surplusFeeCusd + fee at hsum
    refine ⟨n, { hbooks with budget := ?_, budget_lt := ?_, pending_le := ?_ }, hpending, hbudget⟩
    · rw [hbudget, h.budget, hsum]
    · rw [hbudget]
      exact hlt
    · rw [hpending]
      exact h.pending_le.trans hsurplus

theorem bondReceipt_spec (h : v.Holds L) {shares receipt : Nat} :
    wp False (bondReceipt shares receipt) v (fun e _ => Fair e)
      (fun _ u => u.Holds ((L.assign receipt shares).join receipt) ∧ u.pendingSurplusDraw = v.pendingSurplusDraw ∧
        u.feeBudgetCusd = v.feeBudgetCusd) := by
  rw [bondReceipt, wp_bind, wp_get, wp_bind, wp_check]
  refine ⟨fun _ => by simp [Fair], fun hfresh => ?_⟩
  rw [wp_bind, wp_add]
  refine ⟨fun _ => by simp [Fair], fun _ => ?_⟩
  rw [wp_bind, wp_mul]
  refine ⟨fun _ => by simp [Fair], fun _ => ?_⟩
  rw [wp_bind, wp_add]
  refine ⟨fun _ => by simp [Fair], fun _ => ?_⟩
  rw [wp_modify]
  have hmem : receipt ∉ L.live := fun hl => hfresh ((h.stamped receipt).2 hl)
  have hmem' : receipt ∉ (L.assign receipt shares).live := hmem
  refine ⟨{ h.toBooks.join hfresh with budget := ?_, budget_lt := h.budget_lt, pending_le := h.pending_le }, rfl, rfl⟩
  rw [join_owed hmem', assign_owed hmem]
  exact h.budget

theorem harvestReceipt_spec (hM : M.Exact) (h : v.Holds L) {reward receipt : Nat} :
    wp False (harvestReceipt M (L.shares receipt) reward receipt) v (fun e _ => Fair e)
      (fun _ u => u.Holds (L.settle receipt) ∧ u.pendingSurplusDraw = v.pendingSurplusDraw ∧
        u.feeBudgetCusd + reward = v.feeBudgetCusd) := by
  rw [harvestReceipt, wp_bind, wp_get, wp_bind, wp_check]
  refine ⟨fun _ => by simp [Fair], fun hst => ?_⟩
  have hmem : receipt ∈ L.live := (h.stamped _).1 (Bool.not_eq_false _ ▸ hst)
  have hfloor := due_div_add_settle_owed_div_le hmem savingsPrecision
  rw [wp_bind, wp_sub (h.entry_le hmem), wp_bind]
  refine wp_fullMulDiv hM (by simp [Fair]) ?_
  rw [h.due_eq hmem, wp_bind, wp_check]
  refine ⟨fun _ => by simp [Fair], fun hreward => ?_⟩
  have hle : reward ≤ L.due receipt / savingsPrecision := Nat.not_lt.1 hreward
  rw [wp_bind, wp_check]
  refine ⟨fun _ => by simp [Fair], fun hbudget => ?_⟩
  rw [wp_bind, h.outstanding]
  refine ⟨fun _ => by simp [Fair], fun _ => ?_⟩
  rw [wp_bind, wp_mul, h.due_eq hmem]
  refine ⟨fun _ => by simp [Fair], fun _ => ?_⟩
  rw [wp_bind, wp_add]
  refine ⟨fun _ => by simp [Fair], fun _ => ?_⟩
  -- the debt moves before the stamp does, but the view reads only the debt
  have hsettle := h.toBooks.settle hmem
  rw [wp_bind, wp_modify, wp_bind]
  refine (hsettle.outstanding_of_debt
    (u := { v with totalSavingsRewardDebt := v.totalSavingsRewardDebt + L.due receipt }) rfl rfl rfl).2 ?_
  refine ⟨fun _ => by simp [Fair], fun _ => ?_⟩
  rw [wp_bind, wp_sub (by omega), wp_bind, wp_sub (Nat.not_lt.1 hbudget), wp_bind, wp_sub (by omega), wp_bind, wp_add]
  refine ⟨fun _ => by simp [Fair], fun _ => ?_⟩
  rw [wp_modify]
  refine ⟨{ hsettle with budget := ?_, budget_lt := ?_, pending_le := ?_ }, rfl, ?_⟩
  · show v.feeBudgetCusd - reward = (L.settle receipt).owed / savingsPrecision +
      (v.surplusFeeCusd + (L.owed / savingsPrecision - (L.settle receipt).owed / savingsPrecision - reward))
    rw [h.budget]
    generalize (L.settle receipt).owed / savingsPrecision = owedAfter at hfloor
    omega
  · exact (Nat.sub_le _ _).trans_lt h.budget_lt
  · exact h.pending_le.trans (Nat.le_add_right _ _)
  · exact Nat.sub_add_cancel (Nat.not_lt.1 hbudget)

theorem unbondReceipt_spec (h : v.Holds L) {cfg : Config} {legs : List ConfidentialPool.CdpLeg} {receipt : Nat}
    (hshares : ∀ l, legs = [l] → l.value = L.shares receipt) :
    wp False (unbondReceipt cfg legs receipt) v (fun e _ => Fair e)
      (fun _ u => u.Holds (L.leave receipt) ∧ u.pendingSurplusDraw = v.pendingSurplusDraw ∧
        u.feeBudgetCusd = v.feeBudgetCusd) := by
  unfold unbondReceipt
  split
  case h_2 =>
    rw [wp_throw]
    simp [Fair]
  case h_1 l =>
    rw [wp_bind, wp_check, hshares l rfl]
    refine ⟨fun _ => by simp [Fair], fun _ => ?_⟩
    rw [wp_bind, wp_get, wp_bind, wp_check]
    refine ⟨fun _ => by simp [Fair], fun hst => ?_⟩
    have hmem : receipt ∈ L.live := (h.stamped _).1 (Bool.not_eq_false _ ▸ hst)
    have hdebt : L.shares receipt * v.savingsEntryRps receipt ≤ v.totalSavingsRewardDebt := by
      rw [h.entry receipt hmem, ← h.debt]
      exact le_debt hmem
    have howed : (L.leave receipt).owed / savingsPrecision ≤ L.owed / savingsPrecision := by
      refine Nat.div_le_div_right ?_
      have := leave_owed hmem
      omega
    have hleave := h.toBooks.leave hmem
    rw [wp_bind, wp_check]
    refine ⟨fun _ => by simp [Fair], fun _ => ?_⟩
    rw [wp_bind, h.outstanding]
    refine ⟨fun _ => by simp [Fair], fun _ => ?_⟩
    rw [wp_bind, wp_mul]
    refine ⟨fun _ => by simp [Fair], fun _ => ?_⟩
    rw [wp_bind, wp_sub hdebt, wp_bind, wp_modify, wp_bind]
    -- the stamp is still there, but the view does not read it
    refine (hleave.outstanding_of_debt (u := { v with
      totalSavingsRewardDebt := v.totalSavingsRewardDebt - L.shares receipt * v.savingsEntryRps receipt
      totalSavingsShares := v.totalSavingsShares - L.shares receipt }) rfl rfl rfl).2 ?_
    refine ⟨fun _ => by simp [Fair], fun _ => ?_⟩
    rw [wp_bind, wp_sub howed, wp_bind, wp_add]
    refine ⟨fun _ => by simp [Fair], fun _ => ?_⟩
    rw [wp_modify]
    refine ⟨{ hleave with budget := ?_, budget_lt := h.budget_lt, pending_le := ?_ }, rfl, rfl⟩
    · show v.feeBudgetCusd = (L.leave receipt).owed / savingsPrecision +
        (v.surplusFeeCusd + (L.owed / savingsPrecision - (L.leave receipt).owed / savingsPrecision))
      rw [h.budget]
      omega
    · exact h.pending_le.trans (Nat.le_add_right _ _)

theorem surplusDraw_spec (h : v.Holds L) {amount destCommitment : Nat} :
    wp False (surplusDraw amount destCommitment) v (fun e _ => Fair e)
      (fun _ u => u.Holds L ∧ u.feeBudgetCusd + amount = v.feeBudgetCusd) := by
  rw [surplusDraw, wp_bind, wp_get, wp_bind, wp_check]
  refine ⟨fun _ => by simp [Fair], fun _ => ?_⟩
  rw [wp_bind, wp_check]
  refine ⟨fun _ => by simp [Fair], fun _ => ?_⟩
  rw [wp_bind, wp_check]
  refine ⟨fun _ => by simp [Fair], fun hsurplus => ?_⟩
  rw [wp_bind, h.outstanding]
  refine ⟨fun _ => by simp [Fair], fun _ => ?_⟩
  rw [wp_bind, wp_add]
  refine ⟨fun _ => by simp [Fair], fun _ => ?_⟩
  rw [wp_bind, wp_check]
  refine ⟨fun _ => by simp [Fair], fun hbudget => ?_⟩
  have hle : amount ≤ v.feeBudgetCusd := (Nat.le_add_right _ _).trans (Nat.not_lt.1 hbudget)
  rw [wp_bind, wp_sub (Nat.not_lt.1 hsurplus), wp_bind, wp_sub hle, wp_modify]
  refine ⟨{ h with budget := ?_, budget_lt := (Nat.sub_le _ _).trans_lt h.budget_lt, pending_le := Nat.zero_le _ }, ?_⟩
  · show v.feeBudgetCusd - amount = L.owed / savingsPrecision + (v.surplusFeeCusd - amount)
    rw [h.budget, Nat.add_sub_assoc (Nat.not_lt.1 hsurplus)]
  · exact Nat.sub_add_cancel hle

/-- The pending draw is payable, unless the view itself overflows. -/
theorem surplusDraw_payable (h : v.Holds L) (hpending : v.pendingSurplusDraw.amount ≠ 0) :
    wp False (surplusDraw v.pendingSurplusDraw.amount v.pendingSurplusDraw.destCommitment) v
      (fun e _ => e = .panic .mul ∧ 2 ^ 256 ≤ v.savingsRps * v.totalSavingsShares) (fun _ _ => True) := by
  have hsurplus := h.pending_le
  have hbudget := h.budget
  have hlt := h.budget_lt
  rw [surplusDraw, wp_bind, wp_get, wp_bind, wp_check]
  refine ⟨fun h0 => absurd h0 hpending, fun _ => ?_⟩
  rw [wp_bind, wp_check]
  refine ⟨fun hne => by simp at hne, fun _ => ?_⟩
  rw [wp_bind, wp_check]
  refine ⟨fun hbad => absurd hsurplus (Nat.not_le.2 hbad), fun _ => ?_⟩
  rw [wp_bind, h.outstanding]
  refine ⟨fun hbig => ⟨rfl, hbig⟩, fun _ => ?_⟩
  have hneeded : v.pendingSurplusDraw.amount + L.owed / savingsPrecision ≤ v.feeBudgetCusd := by
    rw [hbudget, Nat.add_comm]
    exact Nat.add_le_add_left hsurplus _
  rw [wp_bind, wp_add]
  refine ⟨fun hbig => absurd (hneeded.trans_lt hlt) (Nat.not_lt.2 hbig), fun _ => ?_⟩
  rw [wp_bind, wp_check]
  refine ⟨fun hbad => absurd hneeded (Nat.not_le.2 hbad), fun _ => ?_⟩
  rw [wp_bind, wp_sub hsurplus, wp_bind, wp_sub ((Nat.le_add_right _ _).trans hneeded), wp_modify]
  trivial

/-- What a stamped receipt is entitled to is in the budget. -/
theorem Savings.Holds.entitled_le (hM : M.Exact) (h : v.Holds L) {w n : Nat} (hw : v.savingsEntryStamped w = true)
    (hn : M.fullMulDiv (L.shares w) (v.savingsRps - v.savingsEntryRps w) savingsPrecision = some n) : n ≤ v.feeBudgetCusd := by
  have hmem := (h.stamped w).1 hw
  rw [hM.fullMulDiv_eq hn, h.due_eq hmem, h.budget]
  exact (Nat.div_le_div_right (due_le_owed hmem)).trans (Nat.le_add_right _ _)

end CollateralEngine

end Tacit
