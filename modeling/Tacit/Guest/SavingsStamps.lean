import Tacit.Collateral.Savings
import Tacit.Guest.Exit
/-!
# The collateral engine stamps receipts

`CollateralEngine` as a `ReceiptController`: the savings rate bonds cUSD by the same operations as a farm. Every other
call leaves the stamps and the shares behind them, and moves the index at most (`Still`). A close is exact; what can fail
it is the drip before it and the product of the index with all shares.
-/
namespace Tacit

open Prog RewardLedger

namespace CollateralEngine

variable {M : FixedPointMath} {cfg : Config} {env : Env} {s t : Storage} {v u : Savings} {L : RewardLedger Nat}

/-! ## What the other calls do to the savings -/

/-- The stamps, and the shares of a ledger behind them. -/
structure SameSavers (v u : Savings) : Prop where
  stamped : u.savingsEntryStamped = v.savingsEntryStamped
  holds : ∀ L, v.Holds L → ∃ L', u.Holds L' ∧ L'.live = L.live ∧ L'.shares = L.shares

instance : IsPreorder Savings SameSavers where
  refl _ := ⟨rfl, fun L hL => ⟨L, hL, rfl, rfl⟩⟩
  trans _ _ _ h h' := by
    refine ⟨h'.stamped.trans h.stamped, fun L hL => ?_⟩
    obtain ⟨L₁, h₁, hlive, hshares⟩ := h.holds L hL
    obtain ⟨L₂, h₂, hlive', hshares'⟩ := h'.holds L₁ h₁
    exact ⟨L₂, h₂, hlive'.trans hlive, hshares'.trans hshares⟩

def SameStamps (v u : Savings) : Prop := u.savingsEntryStamped = v.savingsEntryStamped

instance : IsPreorder Savings SameStamps where
  refl _ := rfl
  trans _ _ _ h h' := Eq.trans h' h

theorem outstanding_sameStamps : Prog.Keeps SameStamps outstandingSavingsReward :=
  .bind .get fun _ => .bind .orThrow fun _ => .bind .orThrow fun _ => .pure

theorem bookSurplusFee_sameSavers (fee : Nat) : Prog.Keeps SameSavers (bookSurplusFee fee) := by
  have hstamps : Prog.Keeps SameStamps (bookSurplusFee fee) := by
    refine .ite .pure ?_
    exact .bind .get fun _ => .bind .orThrow fun _ => .bind .orThrow fun _ => .bind .orThrow fun _ => .modify fun _ => rfl
  intro v a u hok
  refine ⟨hstamps hok, fun L hL => ⟨L, ?_, rfl, rfl⟩⟩
  exact (wp_of_ok (E := fun e _ => Fair e) (Q := fun _ u => u.Holds L ∧ u.pendingSurplusDraw = v.pendingSurplusDraw ∧
    u.feeBudgetCusd = v.feeBudgetCusd + fee) (bookSurplusFee_spec hL) hok).1

theorem accrueFee_sameSavers (hM : M.Exact) (bonded : Bool) (fee : Nat) : Prog.Keeps SameSavers (accrueFee M bonded fee) := by
  have hdistribute : Prog.Keeps SameStamps (distribute M fee) := by
    refine .bind .get fun s => .ite ?_ (.bind .orThrow fun _ => .modify fun _ => rfl)
    exact .bind outstanding_sameStamps fun _ => .bind .orThrow fun _ => .bind .orThrow fun _ => .bind (.modify fun _ => rfl)
      fun _ => .bind outstanding_sameStamps fun _ => .bind .orThrow fun _ => .bind .orThrow fun _ => .bind .orThrow fun _ =>
        .modify fun _ => rfl
  have hstamps : Prog.Keeps SameStamps (accrueFee M bonded fee) := by
    refine .ite .pure ?_
    exact .bind .check fun _ => .bind .get fun _ => .bind .orThrow fun _ => .bind .orThrow fun _ =>
      .bind (.modify fun _ => rfl) fun _ => hdistribute
  intro v a u hok
  refine ⟨hstamps hok, fun L hL => ?_⟩
  cases bonded with
  | false =>
    obtain ⟨n, hu, -⟩ := wp_of_ok (E := fun e _ => Overflow e) (Q := fun _ u => ∃ n, u.Holds (L.raise n) ∧
      u.pendingSurplusDraw = v.pendingSurplusDraw ∧ u.feeBudgetCusd = v.feeBudgetCusd + fee) (accrueFee_spec hM hL) hok
    exact ⟨L.raise n, hu, rfl, rfl⟩
  | true =>
    rw [accrueFee, ite_eq_ok] at hok
    obtain ⟨-, hok⟩ | ⟨-, hok⟩ := hok
    · obtain ⟨-, rfl⟩ := pure_eq_ok.1 hok
      exact ⟨L, hL, rfl, rfl⟩
    · simp at hok

theorem surplusDraw_sameSavers (amount destCommitment : Nat) : Prog.Keeps SameSavers (surplusDraw amount destCommitment) := by
  have hstamps : Prog.Keeps SameStamps (surplusDraw amount destCommitment) :=
    .bind .get fun _ => .bind .check fun _ => .bind .check fun _ => .bind .check fun _ => .bind outstanding_sameStamps fun _ =>
      .bind .orThrow fun _ => .bind .check fun _ => .bind .orThrow fun _ => .bind .orThrow fun _ => .modify fun _ => rfl
  intro v a u hok
  refine ⟨hstamps hok, fun L hL => ⟨L, ?_, rfl, rfl⟩⟩
  exact (wp_of_ok (E := fun e _ => Fair e) (Q := fun _ u => u.Holds L ∧ u.feeBudgetCusd + amount = v.feeBudgetCusd)
    (surplusDraw_spec hL) hok).1

/-- The savings as before, and the pool, once it is set. -/
structure Still (s t : Storage) : Prop where
  savings : SameSavers s.savings t.savings
  pool : s.pool ≠ 0 → t.pool = s.pool

instance : IsPreorder Storage Still where
  refl _ := ⟨refl_of SameSavers _, fun _ => rfl⟩
  trans _ _ _ h h' := by
    refine ⟨trans_of SameSavers h.savings h'.savings, fun h0 => ?_⟩
    have heq := h.pool h0
    exact (h'.pool (heq ▸ h0)).trans heq

theorem Still.of_eq (hv : t.savings = s.savings) (hp : t.pool = s.pool) : Still s t :=
  ⟨hv ▸ refl_of SameSavers _, fun _ => hp⟩

theorem onSavings_still {α : Type} {m : SavingsM α} (h : Prog.Keeps SameSavers m) : Prog.Keeps Still (onSavings m) := by
  intro s a t hok
  obtain ⟨v, hv, rfl⟩ := zoom_eq_ok.1 hok
  exact ⟨h hv, fun _ => rfl⟩

theorem onPolicy_still {α : Type} {m : PolicyM α} : Prog.Keeps Still (onPolicy m) := by
  intro s a t hok
  obtain ⟨p, -, rfl⟩ := zoom_eq_ok.1 hok
  exact .of_eq rfl rfl

theorem drip_still (hM : M.Exact) (env : Env) : Prog.Keeps Still (drip M env) := by
  have hinterest : ∀ a b, Prog.Keeps Still (accrueInterest M a b) := by
    intro a b
    refine .bind .get fun s => .ite ?_ .pure
    exact .bind .orThrow fun _ => onSavings_still (accrueFee_sameSavers hM _ _)
  refine .bind .get fun s => .ite .pure (.ite (.modify fun _ => .of_eq rfl rfl) ?_)
  exact .bind .orThrow fun _ => .bind .orThrow fun _ => .bind (.modify fun _ => .of_eq rfl rfl) fun _ => hinterest _ _

theorem owed_still (principal snap : Nat) : Prog.Keeps Still (owed M principal snap) :=
  .bind .get fun _ => .bind .check fun _ => .ite .pure .orThrow

theorem checkRepaid_still (owed repaid : Nat) : Prog.Keeps Still (checkRepaid owed repaid) :=
  .bind .check fun _ => .bind .orThrow fun _ => .check

theorem retirePosition_still (principal snap owed repaid : Nat) : Prog.Keeps Still (retirePosition M principal snap owed repaid) :=
  .bind .orThrow fun _ => .bind .get fun _ => .bind .orThrow fun _ => .bind (.modify fun _ => .of_eq rfl rfl) fun _ =>
    .bind .orThrow fun _ => onSavings_still (bookSurplusFee_sameSavers _)

theorem mintPosition_still (legs : List ConfidentialPool.CdpLeg) (debtValue snap : Nat) :
    Prog.Keeps Still (mintPosition M env cfg legs debtValue snap) := by
  refine .bind .check fun _ => .bind .get fun _ => .bind .check fun _ => .bind .orThrow fun _ => .bind .check fun _ =>
    .bind onPolicy_still fun _ => .bind (owed_still _ _) fun _ => .bind .orThrow fun _ => .bind .orThrow fun _ =>
      .bind .check fun _ => .bind .orThrow fun _ => .bind .orThrow fun _ => .bind .check fun _ => .bind .orThrow fun _ =>
        .bind (.modify fun _ => .of_eq rfl rfl) fun _ => .bind .orThrow fun _ => ?_
  exact .ite (onSavings_still (bookSurplusFee_sameSavers _)) .pure

theorem closePosition_still (principal repaid snap : Nat) : Prog.Keeps Still (closePosition M principal repaid snap) :=
  .bind .get fun _ => .bind .check fun _ => .bind (owed_still _ _) fun _ => .bind (checkRepaid_still _ _) fun _ =>
    .bind (.modify fun _ => .of_eq rfl rfl) fun _ => retirePosition_still _ _ _ _

theorem onCdpLiquidate_still (hM : M.Exact) (legs : List ConfidentialPool.CdpLeg) (principal repaid snap : Nat) :
    Prog.Keeps Still (onCdpLiquidate M env cfg legs principal repaid snap) :=
  .bind .get fun _ => .bind .check fun _ => .bind .check fun _ => .bind .check fun _ => .bind .orThrow fun _ =>
    .bind .check fun _ => .bind (drip_still hM env) fun _ => .bind (owed_still _ _) fun _ =>
      .bind (checkRepaid_still _ _) fun _ => .bind onPolicy_still fun _ => .bind .orThrow fun _ => .bind .orThrow fun _ =>
        .bind .check fun _ => .bind (.modify fun _ => .of_eq rfl rfl) fun _ => retirePosition_still _ _ _ _

theorem onCdpTopup_still (hM : M.Exact) (oldLegs newLegs : List ConfidentialPool.CdpLeg) (debtValue snap leaf : Nat) :
    Prog.Keeps Still (onCdpTopup M env cfg oldLegs newLegs debtValue snap leaf) :=
  .bind .get fun _ => .bind .check fun _ => .bind .check fun _ => .bind .check fun _ => .bind (drip_still hM env) fun _ =>
    .bind (owed_still _ _) fun _ => .bind onPolicy_still fun _ => .bind onPolicy_still fun _ => .bind .check fun _ =>
      .bind .orThrow fun _ => .bind .orThrow fun _ => .check

/-- The calls that are not the pool's. -/
def Call.Governs : Call → Prop
  | .drip => True
  | .setStabilityFee _ => True
  | .authorizeSurplusDraw _ _ => True
  | .setPool _ _ => True
  | .knob _ => True
  | _ => False

theorem governs_still (hM : M.Exact) {c : Call} (hc : c.Governs) : Prog.Keeps Still (c.run M env cfg) := by
  cases c with
  | drip => exact drip_still hM env
  | setStabilityFee n =>
    exact .bind .check fun _ => .bind .check fun _ => .bind (drip_still hM env) fun _ => .modify fun _ => .of_eq rfl rfl
  | authorizeSurplusDraw amount destCommitment =>
    intro s a t hok
    simp only [Call.run, authorizeSurplusDraw, onlyOwner, onSavings, bind_eq_ok, check_eq_ok, get_eq_ok, zoom_eq_ok,
      modify_eq_ok] at hok
    obtain ⟨_, _, ⟨-, rfl⟩, _, _, ⟨rfl, rfl⟩, _, _, ⟨hamount, rfl⟩, _, s, ⟨-, rfl⟩, v, rfl, rfl⟩ := hok
    refine ⟨⟨rfl, fun L hL => ⟨L, { hL with pending_le := ?_ }, rfl, rfl⟩⟩, fun _ => rfl⟩
    exact Nat.not_lt.1 fun hlt => hamount (Or.inr hlt)
  | setPool pool binds =>
    intro s a t hok
    simp only [Call.run, setPool, onlyOwner, bind_eq_ok, check_eq_ok, get_eq_ok, modify_eq_ok] at hok
    obtain ⟨_, _, ⟨-, rfl⟩, _, _, ⟨rfl, rfl⟩, _, _, ⟨hunset, rfl⟩, _, _, ⟨-, rfl⟩, _, s, ⟨-, rfl⟩, rfl⟩ := hok
    exact ⟨refl_of SameSavers _, fun h0 => absurd h0 hunset⟩
  | knob k => exact onPolicy_still
  | _ => exact hc.elim

/-! ## The receipt operations -/

/-- A call that mints stamps at most the receipt of a bond. -/
theorem onCdpMint_stamps (hM : M.Exact) {legs : List ConfidentialPool.CdpLeg} {debtValue positionLeaf rateSnapshot : Nat}
    (h : onCdpMint M env cfg legs debtValue positionLeaf rateSnapshot s = .ok () t) {w : Nat}
    (hw : t.savings.savingsEntryStamped w = true) : s.savings.savingsEntryStamped w = true ∨
      positionLeaf = 1 ∧ debtValue = 0 ∧ rateSnapshot = w := by
  unfold onCdpMint at h
  simp only [bind_eq_ok, get_eq_ok, check_eq_ok] at h
  obtain ⟨_, _, ⟨rfl, rfl⟩, _, s, ⟨-, rfl⟩, _, s₁, hdrip, h⟩ := h
  have hdrip : Still s s₁ := drip_still hM env hdrip
  rw [← hdrip.savings.stamped]
  split at h
  case isTrue hleaf =>
    unfold savingsReceipt at h
    split at h
    case h_2 => exact absurd h throw_ne_ok
    case h_1 l =>
      simp only [bind_eq_ok, check_eq_ok] at h
      obtain ⟨_, _, ⟨-, rfl⟩, _, s₁, ⟨-, rfl⟩, h⟩ := h
      by_cases hdebt : debtValue = 0
      · simp only [if_pos hdebt, onSavings, bind_eq_ok, zoom_eq_ok, modify_eq_ok, bondReceipt, get_eq_ok, check_eq_ok] at h
        obtain ⟨_, _, ⟨v, ⟨_, _, ⟨rfl, rfl⟩, _, _, ⟨-, rfl⟩, n, _, hn, p, _, hp, d, u, hd, rfl⟩, rfl⟩, rfl⟩ := h
        obtain ⟨-, rfl⟩ := orThrow_eq_ok.1 hn
        obtain ⟨-, rfl⟩ := orThrow_eq_ok.1 hp
        obtain ⟨-, rfl⟩ := orThrow_eq_ok.1 hd
        by_cases hwr : w = rateSnapshot
        · exact Or.inr ⟨hleaf, hdebt, hwr.symm⟩
        · exact Or.inl (by simpa [Function.update_of_ne hwr] using hw)
      · have hkeeps : Prog.Keeps SameStamps (harvestReceipt M l.value debtValue rateSnapshot) :=
          .bind .get fun _ => .bind .check fun _ => .bind .orThrow fun _ => .bind .orThrow fun _ => .bind .check fun _ =>
            .bind .check fun _ => .bind outstanding_sameStamps fun _ => .bind .orThrow fun _ => .bind .orThrow fun _ =>
              .bind (.modify fun _ => rfl) fun _ => .bind outstanding_sameStamps fun _ => .bind .orThrow fun _ =>
                .bind .orThrow fun _ => .bind .orThrow fun _ => .bind .orThrow fun _ => .modify fun _ => rfl
        rw [if_neg hdebt] at h
        obtain ⟨v, hv, rfl⟩ := zoom_eq_ok.1 h
        have hsame : SameStamps _ v := hkeeps hv
        exact Or.inl (hsame ▸ hw)
  case isFalse =>
    have hrest : Still s₁ t := by
      split at h
      case isTrue => exact onSavings_still (surplusDraw_sameSavers _ _) h
      case isFalse =>
        obtain ⟨_, s₂, hcheck, hmint⟩ := bind_eq_ok.1 h
        obtain ⟨-, rfl⟩ := check_eq_ok.1 hcheck
        exact mintPosition_still _ _ _ hmint
    exact Or.inl (hrest.savings.stamped ▸ hw)

/-- A close without debt retires the stamp it names. -/
theorem onCdpClose_stamps (hM : M.Exact) {legs : List ConfidentialPool.CdpLeg} {principal repaid rateSnapshot : Nat}
    (h : onCdpClose M env cfg principal repaid rateSnapshot legs s = .ok () t) {w : Nat}
    (hw : t.savings.savingsEntryStamped w = true) :
    s.savings.savingsEntryStamped w = true ∧ (principal = 0 → rateSnapshot ≠ w) := by
  unfold onCdpClose at h
  simp only [bind_eq_ok, get_eq_ok, check_eq_ok] at h
  obtain ⟨_, _, ⟨rfl, rfl⟩, _, s, ⟨-, rfl⟩, _, s₁, hdrip, h⟩ := h
  have hdrip : Still s s₁ := drip_still hM env hdrip
  rw [← hdrip.savings.stamped]
  split at h
  case isTrue hdebt =>
    obtain ⟨_, s₂, hcheck, hunbond⟩ := bind_eq_ok.1 h
    obtain ⟨-, rfl⟩ := check_eq_ok.1 hcheck
    obtain ⟨v, hv, rfl⟩ := zoom_eq_ok.1 hunbond
    have hw : v.savingsEntryStamped w = true := hw
    have hupdate : v.savingsEntryStamped = Function.update s₂.savings.savingsEntryStamped rateSnapshot false := by
      unfold unbondReceipt at hv
      split at hv
      case h_2 => exact absurd hv throw_ne_ok
      case h_1 l =>
        simp only [bind_eq_ok, get_eq_ok, check_eq_ok, modify_eq_ok] at hv
        obtain ⟨_, _, ⟨-, rfl⟩, _, _, ⟨rfl, rfl⟩, _, _, ⟨-, rfl⟩, _, v₀, ⟨-, rfl⟩, _, v₁, hbefore, p, _, hp, d, _, hd, _, _, rfl,
          _, v₂, hafter, n, _, hn, m, _, hm, rfl⟩ := hv
        obtain ⟨-, rfl⟩ := orThrow_eq_ok.1 hp
        obtain ⟨-, rfl⟩ := orThrow_eq_ok.1 hd
        obtain ⟨-, rfl⟩ := orThrow_eq_ok.1 hn
        obtain ⟨-, rfl⟩ := orThrow_eq_ok.1 hm
        have h₁ := outstanding_sameStamps hbefore
        have h₂ := outstanding_sameStamps hafter
        unfold SameStamps at h₁ h₂
        show Function.update _ _ _ = _
        rw [h₂, h₁]
    rw [hupdate] at hw
    by_cases hwr : w = rateSnapshot
    · subst hwr
      simp at hw
    · exact ⟨by simpa [Function.update_of_ne hwr] using hw, fun _ heq => hwr heq.symm⟩
  case isFalse hdebt =>
    have hrest : Still s₁ t := closePosition_still _ _ _ h
    exact ⟨hrest.savings.stamped ▸ hw, fun h0 => absurd h0 hdebt⟩

/-! ## The receipts behind the stamps -/

open SettleGuest in
/-- The entries of the ledger are receipts that the pool bonded in cUSD, with their shares. -/
def Bonded (K : Keccak) (cfg : Config) (self : Address) (s : Storage) : Prop :=
  ∃ L, s.savings.Holds L ∧ ∀ k ∈ L.live, s.pool = self ∧
    ∃ r : Receipt, uintOfWord (r.leaf K) = k ∧ L.shares k = r.shares.val ∧ r.asset = cfg.cusdAssetId ∧ 0 < r.shares.val

variable {K : Keccak} {self : Address} {r : Receipt}

theorem Bonded.construct {pool : Address} {now : Nat} : Bonded K cfg self (construct pool now) := by
  refine ⟨RewardLedger.empty (fun _ => 0) 0, ⟨⟨?_, ?_, rfl, empty_total _ _, empty_debt _ _⟩, ?_, Nat.two_pow_pos _, Nat.le_refl _⟩,
    ?_⟩
  · simp [CollateralEngine.construct, RewardLedger.empty]
  · simp [RewardLedger.empty]
  · rw [empty_owed, Nat.zero_div]
    rfl
  · simp [RewardLedger.empty]

theorem Bonded.still (hself : self ≠ 0) (h : Bonded K cfg self s) (hst : Still s t) : Bonded K cfg self t := by
  obtain ⟨L, hL, hlive⟩ := h
  obtain ⟨L', hL', heq, hshares⟩ := hst.savings.holds L hL
  refine ⟨L', hL', fun k hk => ?_⟩
  rw [heq] at hk
  obtain ⟨hpool, r, hr⟩ := hlive k hk
  refine ⟨(hst.pool (hpool ▸ hself)).trans hpool, r, ?_⟩
  rwa [hshares]

theorem Bonded.transient (h : Bonded K cfg self s) (b : Bool) : Bonded K cfg self { s with savingsBonded := b } := h

section

open SettleGuest

/-- The receipt of a live stamp carries the shares of its entry. -/
theorem shares_of_live (hK : K.Ideal) (h : ∀ k ∈ L.live, s.pool = self ∧ ∃ r : Receipt, uintOfWord (r.leaf K) = k ∧
    L.shares k = r.shares.val ∧ r.asset = cfg.cusdAssetId ∧ 0 < r.shares.val) (hk : uintOfWord (r.leaf K) ∈ L.live) :
    L.shares (uintOfWord (r.leaf K)) = r.shares.val ∧ r.asset = cfg.cusdAssetId ∧ 0 < r.shares.val := by
  obtain ⟨-, r', hleaf, hshares⟩ := h _ hk
  obtain rfl := Receipt.leaf_injective hK (uintOfWord_injective hleaf)
  exact hshares

variable (hK : K.Ideal) (hM : M.Exact) (hself : self ≠ 0)

include hM hself

theorem bond_bonded (hsender : env.sender = self) (h : Bonded K cfg self s)
    (hok : onCdpMint M env cfg [⟨r.asset, r.shares.val⟩] 0 1 (uintOfWord (r.leaf K)) s = .ok () t) : Bonded K cfg self t := by
  simp only [onCdpMint, bind_eq_ok, get_eq_ok, check_eq_ok, if_true, savingsReceipt, onSavings, zoom_eq_ok, modify_eq_ok] at hok
  obtain ⟨_, _, ⟨rfl, rfl⟩, _, s, ⟨hpool, rfl⟩, _, _, hdrip, _, _, ⟨hshape, rfl⟩, _, s₁, ⟨-, rfl⟩, _, _, ⟨v, hbond, rfl⟩, rfl⟩ := hok
  have hdrip : Still s s₁ := drip_still hM env hdrip
  have hpool : s.pool = self := (not_not.1 hpool).symm.trans hsender
  obtain ⟨L, hL, hlive⟩ := h.still hself hdrip
  obtain ⟨hv, -⟩ := wp_of_ok (E := fun e _ => Fair e) (Q := fun _ u =>
    u.Holds ((L.assign (uintOfWord (r.leaf K)) r.shares.val).join (uintOfWord (r.leaf K))) ∧
      u.pendingSurplusDraw = s₁.savings.pendingSurplusDraw ∧ u.feeBudgetCusd = s₁.savings.feeBudgetCusd) (bondReceipt_spec hL) hbond
  refine ⟨_, hv, fun k hk => ⟨(hdrip.pool (hpool ▸ hself)).trans hpool, ?_⟩⟩
  have hshares : ((L.assign (uintOfWord (r.leaf K)) r.shares.val).join (uintOfWord (r.leaf K))).shares =
    Function.update L.shares (uintOfWord (r.leaf K)) r.shares.val := rfl
  rw [hshares]
  by_cases hkr : k = uintOfWord (r.leaf K)
  · refine ⟨r, hkr.symm, ?_, not_not.1 fun hne => hshape (Or.inl hne), Nat.pos_of_ne_zero fun h0 => hshape (Or.inr h0)⟩
    rw [hkr, Function.update_self]
  · rw [Function.update_of_ne hkr]
    exact (hlive k ((Finset.mem_insert.1 hk).resolve_left hkr)).2

/-- A call that mints without the sentinel leaves the receipts alone. -/
theorem mint_bonded (h : Bonded K cfg self s) {legs : List ConfidentialPool.CdpLeg} {debtValue leaf rateSnapshot : Nat}
    (hne : leaf ≠ 1) (hok : onCdpMint M env cfg legs debtValue leaf rateSnapshot s = .ok () t) : Bonded K cfg self t := by
  have hkeeps : Prog.Keeps Still (onCdpMint M env cfg legs debtValue leaf rateSnapshot) := by
    refine .bind .get fun s => .bind .check fun _ => .bind (drip_still hM env) fun _ => ?_
    rw [if_neg hne]
    exact .ite (onSavings_still (surplusDraw_sameSavers _ _)) (.bind .check fun _ => mintPosition_still _ _ _)
  exact h.still hself (hkeeps hok)

theorem close_bonded (h : Bonded K cfg self s) {legs : List ConfidentialPool.CdpLeg} {principal repaid rateSnapshot : Nat}
    (hne : principal ≠ 0) (hok : onCdpClose M env cfg principal repaid rateSnapshot legs s = .ok () t) :
    Bonded K cfg self t := by
  have hkeeps : Prog.Keeps Still (onCdpClose M env cfg principal repaid rateSnapshot legs) := by
    refine .bind .get fun s => .bind .check fun _ => .bind (drip_still hM env) fun _ => ?_
    rw [if_neg hne]
    exact closePosition_still _ _ _
  exact h.still hself (hkeeps hok)

include hK

theorem harvest_bonded (h : Bonded K cfg self s) {asset : Word} {reward : U 64} (hpos : 0 < reward.val)
    (hok : onCdpMint M env cfg [⟨asset, r.shares.val⟩] reward.val 1 (uintOfWord (r.leaf K)) s = .ok () t) :
    Bonded K cfg self t := by
  simp only [onCdpMint, bind_eq_ok, get_eq_ok, check_eq_ok, if_true, savingsReceipt, onSavings, zoom_eq_ok,
    if_neg hpos.ne'] at hok
  obtain ⟨_, _, ⟨rfl, rfl⟩, _, s, ⟨-, rfl⟩, _, _, hdrip, _, _, ⟨-, rfl⟩, _, s₁, ⟨-, rfl⟩, v, hharvest, rfl⟩ := hok
  have hdrip : Still s s₁ := drip_still hM env hdrip
  obtain ⟨L, hL, hlive⟩ := h.still hself hdrip
  have hst : s₁.savings.savingsEntryStamped (uintOfWord (r.leaf K)) = true := by
    simp only [harvestReceipt, bind_eq_ok, get_eq_ok, check_eq_ok] at hharvest
    obtain ⟨_, _, ⟨rfl, rfl⟩, _, _, ⟨hst, -⟩, -⟩ := hharvest
    exact Bool.not_eq_false _ ▸ hst
  have hmem := (hL.stamped _).1 hst
  rw [← (shares_of_live hK hlive hmem).1] at hharvest
  obtain ⟨hv, -⟩ := wp_of_ok (E := fun e _ => Fair e) (Q := fun _ u => u.Holds (L.settle (uintOfWord (r.leaf K))) ∧
    u.pendingSurplusDraw = s₁.savings.pendingSurplusDraw ∧ u.feeBudgetCusd + reward.val = s₁.savings.feeBudgetCusd)
    (harvestReceipt_spec hM hL) hharvest
  exact ⟨_, hv, hlive⟩

theorem unbond_bonded (h : Bonded K cfg self s)
    (hok : onCdpClose M env cfg 0 0 (uintOfWord (r.leaf K)) [⟨r.asset, r.shares.val⟩] s = .ok () t) : Bonded K cfg self t := by
  simp only [onCdpClose, bind_eq_ok, get_eq_ok, check_eq_ok, if_true, onSavings, zoom_eq_ok] at hok
  obtain ⟨_, _, ⟨rfl, rfl⟩, _, s, ⟨-, rfl⟩, _, _, hdrip, _, s₁, ⟨-, rfl⟩, v, hunbond, rfl⟩ := hok
  have hdrip : Still s s₁ := drip_still hM env hdrip
  obtain ⟨L, hL, hlive⟩ := h.still hself hdrip
  have hst : s₁.savings.savingsEntryStamped (uintOfWord (r.leaf K)) = true := by
    simp only [unbondReceipt, bind_eq_ok, get_eq_ok, check_eq_ok] at hunbond
    obtain ⟨_, _, ⟨-, rfl⟩, _, _, ⟨rfl, rfl⟩, _, _, ⟨hst, -⟩, -⟩ := hunbond
    exact Bool.not_eq_false _ ▸ hst
  have hshares := (shares_of_live hK hlive ((hL.stamped _).1 hst)).1
  obtain ⟨hv, -⟩ := wp_of_ok (E := fun e _ => Fair e) (Q := fun _ u => u.Holds (L.leave (uintOfWord (r.leaf K))) ∧
    u.pendingSurplusDraw = s₁.savings.pendingSurplusDraw ∧ u.feeBudgetCusd = s₁.savings.feeBudgetCusd)
    (unbondReceipt_spec hL (by
      intro l hl
      obtain rfl := List.singleton_inj.1 hl
      exact hshares.symm)) hunbond
  exact ⟨_, hv, fun k hk => hlive k (Finset.mem_erase.1 hk).2⟩

/-- After the drip, a stamped receipt closes unless the index times all shares overflows. -/
theorem unbond_exits (h : Bonded K cfg self s) (hsender : env.sender = self)
    (hst : s.savings.savingsEntryStamped (uintOfWord (r.leaf K)) = true) {u : Storage} (hdrip : drip M env s = .ok () u)
    (hfit : u.savings.savingsRps * u.savings.totalSavingsShares < 2 ^ 256) :
    ∃ t, onCdpClose M env cfg 0 0 (uintOfWord (r.leaf K)) [⟨r.asset, r.shares.val⟩] s = .ok () t := by
  have hstill : Still s u := drip_still hM env hdrip
  have hpool : s.pool = self := by
    obtain ⟨L, hL, hlive⟩ := h
    exact (hlive _ ((hL.stamped _).1 hst)).1
  obtain ⟨L, hL, hlive⟩ := h.still hself hstill
  rw [← hstill.savings.stamped] at hst
  have hmem := (hL.stamped _).1 hst
  obtain ⟨hshares, hasset, hpos⟩ := shares_of_live hK hlive hmem
  generalize hk : uintOfWord (r.leaf K) = k at *
  have hunbond : ∃ v, unbondReceipt cfg [⟨r.asset, r.shares.val⟩] k u.savings = .ok () v := by
    have htotal : r.shares.val ≤ u.savings.totalSavingsShares := by
      rw [← hL.total, ← hshares, ← leave_total hmem]
      exact Nat.le_add_left _ _
    have hproduct : r.shares.val * u.savings.savingsEntryRps k < 2 ^ 256 := by
      refine (Nat.mul_le_mul htotal (hL.entry_le hmem)).trans_lt ?_
      rwa [Nat.mul_comm]
    have hdebt : r.shares.val * u.savings.savingsEntryRps k ≤ u.savings.totalSavingsRewardDebt := by
      rw [hL.entry k hmem, ← hL.debt, ← hshares]
      exact le_debt hmem
    have howed : (L.leave k).owed / savingsPrecision ≤ L.owed / savingsPrecision := by
      refine Nat.div_le_div_right ?_
      have := leave_owed hmem
      omega
    have hleave := hL.toBooks.leave hmem
    rw [hshares] at hleave
    have hok : wp False (unbondReceipt cfg [⟨r.asset, r.shares.val⟩] k) u.savings (fun _ _ => False) (fun _ _ => True) := by
      unfold unbondReceipt
      rw [wp_bind, wp_check]
      refine ⟨fun hbad => hbad.elim (fun hne => hne hasset) hpos.ne', fun _ => ?_⟩
      rw [wp_bind, wp_get, wp_bind, wp_check]
      refine ⟨fun hno => by simp [hst] at hno, fun _ => ?_⟩
      rw [wp_bind, wp_check]
      refine ⟨fun hlt => absurd htotal (Nat.not_le.2 hlt), fun _ => ?_⟩
      rw [wp_bind, hL.outstanding]
      refine ⟨fun hbig => absurd hfit (Nat.not_lt.2 hbig), fun _ => ?_⟩
      rw [wp_bind, wp_mul]
      refine ⟨fun hbig => absurd hproduct (Nat.not_lt.2 hbig), fun _ => ?_⟩
      rw [wp_bind, wp_sub hdebt, wp_bind, wp_modify, wp_bind]
      refine (hleave.outstanding_of_debt (u := { u.savings with
        totalSavingsRewardDebt := u.savings.totalSavingsRewardDebt - r.shares.val * u.savings.savingsEntryRps k
        totalSavingsShares := u.savings.totalSavingsShares - r.shares.val }) rfl rfl rfl).2 ?_
      refine ⟨fun hbig => absurd hfit (Nat.not_lt.2 (hbig.trans (Nat.mul_le_mul_left _ (Nat.sub_le _ _)))), fun _ => ?_⟩
      rw [wp_bind, wp_sub howed, wp_bind, wp_add]
      refine ⟨fun hbig => absurd hL.budget_lt ?_, fun _ => ?_⟩
      · rw [hL.budget]
        change 2 ^ 256 ≤ u.savings.surplusFeeCusd + _ at hbig
        exact Nat.not_lt.2 (hbig.trans ((Nat.add_le_add_left (Nat.sub_le _ _) _).trans_eq (Nat.add_comm _ _)))
      · rw [wp_modify]
        trivial
    obtain ⟨_, v, hv, -⟩ := ok_of_wp hok
    exact ⟨v, hv⟩
  obtain ⟨v, hv⟩ := hunbond
  refine ⟨{ u with savings := v }, ?_⟩
  simp only [onCdpClose, bind_eq_ok, get_eq_ok, check_eq_ok, if_true, onSavings, zoom_eq_ok]
  exact ⟨s, s, ⟨rfl, rfl⟩, (), s, ⟨not_not.2 (hsender.trans hpool.symm), rfl⟩, (), u, hdrip, (), u, ⟨not_not.2 rfl, rfl⟩, v, hv,
    rfl⟩

end

end CollateralEngine

namespace SettleGuest

theorem uintOfWord_one {w : Word} (h : uintOfWord w = 1) : w = wordOfNat 1 :=
  uintOfWord_injective (h.trans (by decide))

open CollateralEngine in
/-- The collateral engine at an address, whose pool is `self`. The close of a receipt needs a drip that fits, and the
product that the view of the savings takes. -/
def savingsReceipts {K : Keccak} (hK : K.Ideal) {M : FixedPointMath} (hM : M.Exact) (cfg : CollateralEngine.Config)
    {self : Address} (hself : self ≠ 0) (address : U 160) : ReceiptController K where
  St := CollateralEngine.Storage
  address := address
  stamped s w := s.savings.savingsEntryStamped (uintOfWord w)
  start s := { s with savingsBonded := false }
  fresh now s := ∃ pool, s = CollateralEngine.construct pool now
  mint now m s t := ∃ env : CollateralEngine.Env, env.now = now ∧ env.sender = self ∧
    onCdpMint M env cfg m.legs m.debtValue (uintOfWord m.positionLeaf) m.rateSnapshot s = .ok () t
  topup now u s t := ∃ env : CollateralEngine.Env, env.now = now ∧ env.sender = self ∧
    onCdpTopup M env cfg u.oldLegs u.newLegs u.debtValue u.rateSnapshot (uintOfWord u.newPositionLeaf) s = .ok () t
  close now c s t := ∃ env : CollateralEngine.Env, env.now = now ∧ env.sender = self ∧
    onCdpClose M env cfg c.debtValue c.repaid c.rateSnapshot c.legs s = .ok () t
  liquidate now q s t := ∃ env : CollateralEngine.Env, env.now = now ∧ env.sender = self ∧
    onCdpLiquidate M env cfg q.legs q.debtValue q.repaid q.rateSnapshot s = .ok () t
  own now now' s t := now ≤ now' ∧ (t = s ∨ ∃ env : CollateralEngine.Env, ∃ c : CollateralEngine.Call, env.now = now ∧
    c.Governs ∧ c.run M env cfg { s with savingsBonded := false } = .ok () t)
  sound _ s := Bonded K cfg self s
  ready now s _ := ∃ env : CollateralEngine.Env, ∃ u, env.now = now ∧ env.sender = self ∧
    CollateralEngine.drip M env { s with savingsBonded := false } = .ok () u ∧
    u.savings.savingsRps * u.savings.totalSavingsShares < 2 ^ 256
  start_stamped := rfl
  fresh_stamped := by
    rintro now s w ⟨pool, rfl⟩
    rfl
  mint_stamped := by
    rintro now m s t w ⟨env, -, -, hok⟩ hw
    exact (CollateralEngine.onCdpMint_stamps hM hok hw).imp_right fun h => ⟨uintOfWord_one h.1, h.2⟩
  topup_stamped := by
    rintro now u s t w ⟨env, -, -, hok⟩ hw
    have hstill : Still s t := onCdpTopup_still hM _ _ _ _ _ hok
    exact hstill.savings.stamped ▸ hw
  close_stamped := by
    rintro now c s t w ⟨env, -, -, hok⟩ hw
    obtain ⟨hold, hne⟩ := CollateralEngine.onCdpClose_stamps hM hok hw
    exact ⟨hold, fun h0 heq => absurd heq (hne h0)⟩
  liquidate_stamped := by
    rintro now q s t w ⟨env, -, -, hok⟩ hw
    have hstill : Still s t := onCdpLiquidate_still hM _ _ _ _ hok
    exact hstill.savings.stamped ▸ hw
  own_stamped := by
    rintro now now' s t w ⟨-, rfl | ⟨env, c, -, hc, hok⟩⟩ hw
    · exact hw
    · have hstill : Still _ t := governs_still hM hc hok
      exact hstill.savings.stamped ▸ hw
  start_sound h := h
  fresh_sound := by
    rintro now s ⟨pool, rfl⟩
    exact .construct
  bond_sound := by
    rintro now r s t hs ⟨env, -, hsender, hok⟩ -
    have hone : uintOfWord (wordOfNat 1) = 1 := by decide
    rw [bondMint, hone] at hok
    exact bond_bonded hM hself hsender hs hok
  harvest_sound := by
    rintro now r asset reward s t hs ⟨env, -, -, hok⟩ hpos
    have hone : uintOfWord (wordOfNat 1) = 1 := by decide
    rw [harvestMint, hone] at hok
    exact harvest_bonded hK hM hself hs hpos hok
  mint_sound := by
    rintro now m s t hs ⟨env, -, -, hok⟩ hne
    exact mint_bonded hM hself hs (fun h => hne (uintOfWord_one h)) hok
  topup_sound := by
    rintro now u s t hs ⟨env, -, -, hok⟩
    exact hs.still hself (onCdpTopup_still hM _ _ _ _ _ hok)
  unbond_sound := by
    rintro now r s t hs ⟨env, -, -, hok⟩
    exact unbond_bonded hK hM hself hs hok
  close_sound := by
    rintro now c s t hs ⟨env, -, -, hok⟩ hne
    exact close_bonded hM hself hs hne hok
  liquidate_sound := by
    rintro now q s t hs ⟨env, -, -, hok⟩
    exact hs.still hself (onCdpLiquidate_still hM _ _ _ _ hok)
  own_sound := by
    rintro now now' s t hs ⟨-, rfl | ⟨env, c, -, hc, hok⟩⟩
    · exact hs
    · exact (hs.transient false).still hself (governs_still hM hc hok)
  exits := by
    rintro now s r hs hst ⟨env, u, hnow, hsender, hdrip, hfit⟩
    obtain ⟨t, ht⟩ := CollateralEngine.unbond_exits hK hM hself (hs.transient false) hsender hst hdrip hfit
    exact ⟨t, env, hnow, hsender, ht⟩

end SettleGuest

end Tacit
