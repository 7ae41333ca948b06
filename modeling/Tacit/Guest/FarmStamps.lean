import Tacit.Controller.FarmSolvency
import Tacit.Guest.Exit
/-!
# The farm controller stamps receipts

`FarmController` as a `ReceiptController`. Its treasury is the pool's and is any amount here: neither a stamp nor a close
reads it. The ledger behind the stamps makes the close exact, at every time that a block header can have and for any
number of shares: the products of a bond that would not fit fail the bond.
-/
namespace Tacit

open Prog RewardLedger

namespace FarmController

variable {K : Keccak} {cfg : Config} {env : Env} {s t : Storage} {L : RewardLedger Receipt} {now : Nat} {r : Receipt}

/-! ## The stamps a call moves -/

/-- No stamp but that of `x` is new. -/
def Stamps (x : Word) (s t : Storage) : Prop := ∀ w, t.entryStamped w = true → s.entryStamped w = true ∨ w = x

instance (x : Word) : IsPreorder Storage (Stamps x) where
  refl _ _ h := Or.inl h
  trans _ _ _ h h' w hw := (h' w hw).elim (h w) Or.inr

def SameStamps (s t : Storage) : Prop := t.entryStamped = s.entryStamped

instance : IsPreorder Storage SameStamps where
  refl _ := rfl
  trans _ _ _ h h' := Eq.trans h' h

/-- What the accrual reads and writes. -/
def SameAccrual (s t : Storage) : Prop := t.rate = s.rate ∧ t.rps = s.rps ∧ t.lastUpdate = s.lastUpdate

instance : IsPreorder Storage SameAccrual where
  refl _ := ⟨rfl, rfl, rfl⟩
  trans _ _ _ h h' := ⟨h'.1.trans h.1, h'.2.1.trans h.2.1, h'.2.2.trans h.2.2⟩

theorem accrue_sameStamps (now : Nat) : Keeps SameStamps (accrue now) := by
  have hemit : ∀ s dt, Keeps SameStamps (emit s dt) := fun s dt =>
    .bind .orThrow fun _ => .bind .orThrow fun _ => .bind .orThrow fun _ => .modify fun _ => rfl
  unfold accrue
  refine .bind .get fun s => ?_
  apply Keeps.ite
  · exact .pure
  · apply Keeps.ite
    · exact .bind (hemit _ _) fun _ => .modify fun _ => rfl
    · exact .modify fun _ => rfl

theorem outstandingReward_sameStamps : Keeps SameStamps outstandingReward :=
  .bind .get fun _ => .bind .orThrow fun _ => .bind .orThrow fun _ => .pure

theorem stakeWeight_sameStamps (cfg : Config) (legs : List ConfidentialPool.CdpLeg) : Keeps SameStamps (stakeWeight cfg legs) := by
  have hgo : ∀ (legs : List ConfidentialPool.CdpLeg) (w : Nat), Keeps SameStamps (stakeWeight.go cfg legs w) := by
    intro legs
    induction legs with
    | nil => exact fun _ => .pure
    | cons l legs ih => exact fun w => .bind .check fun _ => .bind .check fun _ => .bind .orThrow fun _ => ih _
  exact .bind .check fun _ => hgo legs 0

/-- A call that mints stamps at most the receipt of a bond. -/
theorem onCdpMint_stamps {legs : List ConfidentialPool.CdpLeg} {debtValue : Nat} {positionLeaf rateSnapshot : Word}
    (h : onCdpMint cfg env legs debtValue positionLeaf rateSnapshot s = .ok () t) {w : Word} (hw : t.entryStamped w = true) :
    s.entryStamped w = true ∨ positionLeaf = receiptSentinel ∧ debtValue = 0 ∧ w = rateSnapshot := by
  unfold onCdpMint at h
  rw [bind_eq_ok] at h
  obtain ⟨_, s₁, hsender, h⟩ := h
  obtain ⟨-, rfl⟩ := check_eq_ok.1 hsender
  rw [bind_eq_ok] at h
  obtain ⟨_, s₂, haccrue, h⟩ := h
  have hsame : SameStamps s₁ s₂ := accrue_sameStamps _ haccrue
  rw [← hsame]
  split at h
  case isTrue hleaf =>
    rw [bind_eq_ok] at h
    obtain ⟨_, s₃, hmode, h⟩ := h
    obtain ⟨-, rfl⟩ := check_eq_ok.1 hmode
    split at h
    case h_1 l =>
      by_cases hdebt : debtValue = 0
      · have hkeeps : Keeps (Stamps rateSnapshot) (bondReceipt cfg l.asset l.value rateSnapshot) := by
          refine .bind .get fun s => .bind .check fun _ => .bind .check fun _ => .bind .orThrow fun _ => .bind .orThrow fun _ =>
            .bind .orThrow fun _ => .modify fun s x hx => ?_
          by_cases hxr : x = rateSnapshot
          · exact Or.inr hxr
          · exact Or.inl (by simpa [Function.update_of_ne hxr] using hx)
        simp only [bind_eq_ok, check_eq_ok, if_pos hdebt] at h
        obtain ⟨_, _, ⟨-, rfl⟩, _, _, ⟨-, rfl⟩, h⟩ := h
        exact (hkeeps h w hw).imp_right fun hxr => ⟨hleaf, hdebt, hxr⟩
      · have hkeeps : Keeps SameStamps (harvestReceipt cfg l.asset l.value debtValue rateSnapshot) :=
          .bind .get fun _ => .bind .check fun _ => .bind .check fun _ => .bind .orThrow fun _ => .bind .orThrow fun _ =>
            .bind .orThrow fun _ => .bind .check fun _ => .bind .orThrow fun _ => .bind .orThrow fun _ => .modify fun _ => rfl
        simp only [bind_eq_ok, check_eq_ok, if_neg hdebt] at h
        obtain ⟨_, _, ⟨-, rfl⟩, _, _, ⟨-, rfl⟩, h⟩ := h
        have hsame : SameStamps _ _ := hkeeps h
        exact Or.inl (hsame ▸ hw)
    case h_2 => exact absurd h throw_ne_ok
  case isFalse =>
    split at h
    case isTrue => exact absurd h throw_ne_ok
    case isFalse =>
      have hkeeps : Keeps SameStamps (do
          check (cfg.receiptMode = true) .notSupported
          check (debtValue ≠ 0) .badFarmShape
          let w ← stakeWeight cfg legs
          let s ← get
          let total ← add s.totalShares w
          modify fun s => { s with totalShares := total } : FarmM Unit) :=
        .bind .check fun _ => .bind .check fun _ => .bind (stakeWeight_sameStamps cfg legs) fun _ => .bind .get fun _ =>
          .bind .orThrow fun _ => .modify fun _ => rfl
      have hsame : SameStamps _ _ := hkeeps h
      exact Or.inl (hsame ▸ hw)

/-- A close retires the stamp it names. -/
theorem onCdpClose_stamps {principal repaid : Nat} {rateSnapshot : Word} {legs : List ConfidentialPool.CdpLeg}
    (h : onCdpClose cfg env principal repaid rateSnapshot legs s = .ok () t) {w : Word} (hw : t.entryStamped w = true) :
    s.entryStamped w = true ∧ (w = rateSnapshot → w = 0) := by
  simp only [onCdpClose, bind_eq_ok, check_eq_ok, get_eq_ok, modify_eq_ok] at h
  obtain ⟨_, _, ⟨-, rfl⟩, _, _, ⟨-, rfl⟩, _, _, ⟨rfl, rfl⟩, _, s, ⟨-, rfl⟩, _, s₁, haccrue, n, s₂, hweight, _, _, hretire,
    _, _, ⟨rfl, rfl⟩, _, s₃, ⟨-, rfl⟩, rfl⟩ := h
  have hsame : SameStamps s s₂ := trans_of SameStamps (accrue_sameStamps _ haccrue) (stakeWeight_sameStamps cfg legs hweight)
  have hw : s₃.entryStamped w = true := hw
  rw [← hsame]
  simp only [retireStamp, bind_eq_ok, get_eq_ok, ite_eq_ok, check_eq_ok, modify_eq_ok] at hretire
  obtain ⟨_, _, ⟨rfl, rfl⟩, ⟨-, _, _, ⟨-, rfl⟩, _, _, hmul, _, _, hsub, rfl⟩ | ⟨-, hzero, rfl⟩⟩ := hretire
  · obtain ⟨-, rfl⟩ := orThrow_eq_ok.1 hmul
    obtain ⟨-, rfl⟩ := orThrow_eq_ok.1 hsub
    by_cases hwr : w = rateSnapshot
    · subst hwr
      simp at hw
    · exact ⟨by simpa [Function.update_of_ne hwr] using hw, fun h => absurd h hwr⟩
  · exact ⟨hw, fun h => h.trans (not_not.1 hzero)⟩

/-! ## The books behind the stamps -/

/-- The stamps of a reward farm are those of a ledger of its own asset; a lock vault has none. -/
structure Kept (K : Keccak) (cfg : Config) (now : Nat) (s : Storage) : Prop where
  wide : Wide now s
  receipts : cfg.receiptMode = true → ∃ L, Tied K s L ∧ ∀ r ∈ L.live, r.asset = cfg.stakeAsset ∧ 0 < r.shares.val
  vault : cfg.receiptMode = false → ∀ w, s.entryStamped w = false

theorem Kept.accrued (h : Kept K cfg now s) : Kept K cfg now (s.accrued now) where
  wide := h.wide.accrued
  receipts hR := by
    obtain ⟨L, hL, hlive⟩ := h.receipts hR
    exact ⟨_, hL.accrued, hlive⟩
  vault := h.vault

/-- The fields that neither the stamps nor the next accrual reads. -/
theorem Kept.congr (h : Kept K cfg now s) (hw : Wide now t) (hstamped : t.entryStamped = s.entryStamped)
    (hentry : t.entryRps = s.entryRps) (hrps : t.rps = s.rps) (htotal : t.totalShares = s.totalShares)
    (hdebt : t.totalRewardDebt = s.totalRewardDebt) : Kept K cfg now t where
  wide := hw
  receipts hR := by
    obtain ⟨L, hL, hlive⟩ := h.receipts hR
    refine ⟨L, ⟨hL.shares, ?_, ?_, ?_, ?_, ?_⟩, hlive⟩
    · rw [hstamped]
      exact hL.stamped
    · rw [hentry]
      exact hL.entry
    · rw [hrps]
      exact hL.index
    · rw [htotal]
      exact hL.total
    · rw [hdebt]
      exact hL.debt
  vault hR := by
    rw [hstamped]
    exact h.vault hR

theorem Kept.withTreasury (h : Kept K cfg now s) (n : Nat) : Kept K cfg now { s with treasury := n } :=
  h.congr { h.wide with } rfl rfl rfl rfl rfl

theorem Kept.later {now' : Nat} (h : Kept K cfg now s) (hle : now ≤ now') (hlt : now' < 2 ^ 64) : Kept K cfg now' s :=
  { h with wide := { h.wide with time_le := h.wide.time_le.trans hle, clock := hlt } }

theorem Kept.construct {lock : Nat} (h : now < 2 ^ 64) : Kept K cfg now (construct lock now) where
  wide := ⟨Nat.le_refl _, h, Nat.two_pow_pos _, Nat.zero_le _⟩
  receipts _ := by
    refine ⟨RewardLedger.empty (fun r => r.shares.val) 0, ⟨fun _ => rfl, ?_, ?_, rfl, empty_total _ _, empty_debt _ _⟩, ?_⟩
    · simp [FarmController.construct, RewardLedger.empty]
    · simp [RewardLedger.empty]
    · simp [RewardLedger.empty]
  vault _ _ := rfl

/-- In a lock vault only the accrual matters. -/
theorem Kept.of_vault (h : Kept K cfg now s) (hV : cfg.receiptMode = false) {u : Storage} (hu : accrue now s = .ok () u)
    (hsame : SameAccrual u t) (hst : ∀ w, t.entryStamped w = true → s.entryStamped w = true) : Kept K cfg now t where
  wide := by
    obtain rfl : u = s.accrued now := wp_of_ok (A := False) (E := fun _ _ => False) (Q := fun _ v => v = s.accrued now)
      (h.wide.wp_accrue.2 rfl) hu
    obtain ⟨hrate, hrps, hlast⟩ := hsame
    have hacc := h.wide.accrued
    exact ⟨hlast ▸ hacc.time_le, hacc.clock, hrate ▸ hacc.rate_lt, hrps ▸ hlast ▸ hacc.rps_le⟩
  receipts hR := by
    rw [hV] at hR
    cases hR
  vault hV w := by
    by_contra hw
    have := hst w (Bool.not_eq_false _ ▸ hw)
    rw [h.vault hV w] at this
    cases this

theorem stakeWeight_sameAccrual (legs : List ConfidentialPool.CdpLeg) : Keeps SameAccrual (stakeWeight cfg legs) := by
  have hgo : ∀ (legs : List ConfidentialPool.CdpLeg) (w : Nat), Keeps SameAccrual (stakeWeight.go cfg legs w) := by
    intro legs
    induction legs with
    | nil => exact fun _ => .pure
    | cons l legs ih => exact fun w => .bind .check fun _ => .bind .check fun _ => .bind .orThrow fun _ => ih _
  exact .bind .check fun _ => hgo legs 0

/-- A close without a stamp is one of a lock vault. -/
theorem onCdpClose_unstamped {principal repaid : Nat} {rateSnapshot : Word} {legs : List ConfidentialPool.CdpLeg}
    (h : onCdpClose cfg env principal repaid rateSnapshot legs s = .ok () t) (hst : s.entryStamped rateSnapshot = false) :
    cfg.receiptMode = false ∧ ∃ u, accrue env.now s = .ok () u ∧ SameAccrual u t := by
  simp only [onCdpClose, bind_eq_ok, check_eq_ok, get_eq_ok, modify_eq_ok] at h
  obtain ⟨_, _, ⟨-, rfl⟩, _, _, ⟨-, rfl⟩, _, _, ⟨rfl, rfl⟩, _, s, ⟨-, rfl⟩, _, s₁, haccrue, n, s₂, hweight, _, _, hretire,
    _, _, ⟨rfl, rfl⟩, _, s₃, ⟨-, rfl⟩, rfl⟩ := h
  have hsame : SameStamps s s₂ := trans_of SameStamps (accrue_sameStamps _ haccrue) (stakeWeight_sameStamps cfg legs hweight)
  simp only [retireStamp, bind_eq_ok, get_eq_ok, ite_eq_ok, check_eq_ok, modify_eq_ok] at hretire
  obtain ⟨_, _, ⟨rfl, rfl⟩, ⟨-, _, _, ⟨hlive, rfl⟩, -⟩ | ⟨hV, -, rfl⟩⟩ := hretire
  · rw [hsame] at hlive
    exact absurd hst hlive
  · have hacc : SameAccrual s₁ _ := stakeWeight_sameAccrual legs hweight
    exact ⟨Bool.not_eq_true _ ▸ hV, s₁, haccrue, hacc⟩

/-- A call that mints without the sentinel is one of a lock vault. -/
theorem position_kept (h : Kept K cfg env.now s) {legs : List ConfidentialPool.CdpLeg} {debtValue : Nat}
    {positionLeaf rateSnapshot : Word} (hne : positionLeaf ≠ receiptSentinel)
    (hok : onCdpMint cfg env legs debtValue positionLeaf rateSnapshot s = .ok () t) : Kept K cfg env.now t := by
  have hstamps := fun w => onCdpMint_stamps (w := w) hok
  unfold onCdpMint at hok
  rw [bind_eq_ok] at hok
  obtain ⟨_, s₁, hsender, hok⟩ := hok
  obtain ⟨-, rfl⟩ := check_eq_ok.1 hsender
  rw [bind_eq_ok] at hok
  obtain ⟨_, u, haccrue, hok⟩ := hok
  rw [if_neg hne] at hok
  split at hok
  case isTrue => exact absurd hok throw_ne_ok
  case isFalse =>
    rw [bind_eq_ok] at hok
    obtain ⟨_, s₂, hmode, hok⟩ := hok
    obtain ⟨hV, rfl⟩ := check_eq_ok.1 hmode
    have hkeeps : Keeps SameAccrual (do
        check (debtValue ≠ 0) .badFarmShape
        let w ← stakeWeight cfg legs
        let s ← get
        let total ← add s.totalShares w
        modify fun s => { s with totalShares := total } : FarmM Unit) :=
      .bind .check fun _ => .bind (stakeWeight_sameAccrual legs) fun _ => .bind .get fun _ =>
        .bind .orThrow fun _ => .modify fun _ => ⟨rfl, rfl, rfl⟩
    refine h.of_vault (Bool.not_eq_true _ ▸ hV) haccrue (hkeeps hok) fun w hw => ?_
    exact (hstamps w hw).resolve_right fun hb => hne hb.1

/-! ## The pool's calls keep the books -/

section

variable (hK : K.Ideal) {sender : Address}

include hK

theorem bond_kept (h : Kept K cfg now s) (hpos : 0 < r.shares.val)
    (hok : onCdpMint cfg ⟨sender, now⟩ [⟨r.asset, r.shares.val⟩] 0 receiptSentinel (r.leaf K) s = .ok () t) :
    Kept K cfg now t := by
  have hacc := h.accrued
  have hspec : wp True (onCdpMint cfg ⟨sender, now⟩ [⟨r.asset, r.shares.val⟩] 0 receiptSentinel (r.leaf K)) s
      (fun _ _ => True) (fun _ t => Kept K cfg now t) := by
    rw [onCdpMint, wp_bind, wp_check]
    refine ⟨fun _ => trivial, fun _ => ?_⟩
    rw [wp_bind, h.wide.wp_accrue, if_pos rfl, wp_bind, wp_check]
    generalize s.accrued now = u at hacc
    refine ⟨fun _ => trivial, fun hR => ?_⟩
    have hR : cfg.receiptMode = true := Bool.not_eq_false _ ▸ hR
    rw [wp_bind, wp_check]
    refine ⟨fun _ => trivial, fun _ => ?_⟩
    rw [wp_bind, wp_check]
    refine ⟨fun _ => trivial, fun _ => ?_⟩
    rw [if_pos rfl, bondReceipt, wp_bind, wp_get, wp_bind, wp_check]
    refine ⟨fun _ => trivial, fun hasset => ?_⟩
    rw [wp_bind, wp_check]
    refine ⟨fun _ => trivial, fun hfresh => ?_⟩
    obtain ⟨L, hL, hlive⟩ := hacc.receipts hR
    rw [wp_bind, add, wp_uint256]
    refine ⟨fun _ => trivial, fun _ => ?_⟩
    rw [wp_bind, mul, wp_uint256]
    refine ⟨fun _ => trivial, fun _ => ?_⟩
    rw [wp_bind, add, wp_uint256]
    refine ⟨fun _ => trivial, fun _ => ?_⟩
    rw [wp_modify]
    refine ⟨{ hacc.wide with }, fun _ => ⟨_, hL.join hK hfresh, fun j hj => ?_⟩, fun hV => ?_⟩
    · rcases Finset.mem_insert.1 hj with rfl | hj
      · exact ⟨not_not.1 hasset, hpos⟩
      · exact hlive j hj
    · rw [hR] at hV
      cases hV
  exact wp_of_ok (Q := fun _ t => Kept K cfg now t) hspec hok

theorem harvest_kept (h : Kept K cfg now s) {asset : Word} {reward : U 64} (hreward : 0 < reward.val)
    (hok : onCdpMint cfg ⟨sender, now⟩ [⟨asset, r.shares.val⟩] reward.val receiptSentinel (r.leaf K) s = .ok () t) :
    Kept K cfg now t := by
  have hacc := h.accrued
  have hspec : wp True (onCdpMint cfg ⟨sender, now⟩ [⟨asset, r.shares.val⟩] reward.val receiptSentinel (r.leaf K)) s
      (fun _ _ => True) (fun _ t => Kept K cfg now t) := by
    rw [onCdpMint, wp_bind, wp_check]
    refine ⟨fun _ => trivial, fun _ => ?_⟩
    rw [wp_bind, h.wide.wp_accrue, if_pos rfl, wp_bind, wp_check]
    generalize s.accrued now = u at hacc
    refine ⟨fun _ => trivial, fun hR => ?_⟩
    have hR : cfg.receiptMode = true := Bool.not_eq_false _ ▸ hR
    rw [wp_bind, wp_check]
    refine ⟨fun _ => trivial, fun _ => ?_⟩
    rw [wp_bind, wp_check]
    refine ⟨fun _ => trivial, fun _ => ?_⟩
    rw [if_neg hreward.ne', harvestReceipt, wp_bind, wp_get, wp_bind, wp_check]
    refine ⟨fun _ => trivial, fun _ => ?_⟩
    rw [wp_bind, wp_check]
    refine ⟨fun _ => trivial, fun hst => ?_⟩
    obtain ⟨L, hL, hlive⟩ := hacc.receipts hR
    have hmem : r ∈ L.live := hL.mem_of_stamped hK (Bool.not_eq_false _ ▸ hst)
    have hentry : u.entryRps (r.leaf K) ≤ u.rps := by
      rw [hL.entry r hmem, ← hL.index]
      exact L.entry_le r hmem
    rw [wp_bind, wp_sub hentry, wp_bind, mul, wp_uint256]
    refine ⟨fun _ => trivial, fun _ => ?_⟩
    rw [wp_bind, mul, wp_uint256]
    refine ⟨fun _ => trivial, fun _ => ?_⟩
    rw [wp_bind, wp_check]
    refine ⟨fun _ => trivial, fun _ => ?_⟩
    rw [wp_bind, wp_uint256]
    refine ⟨fun _ => trivial, fun _ => ?_⟩
    rw [wp_bind, add, wp_uint256, hL.due_eq hmem]
    refine ⟨fun _ => trivial, fun _ => ?_⟩
    rw [wp_modify]
    refine ⟨{ hacc.wide with }, fun _ => ⟨_, hL.settle hK hmem, hlive⟩, fun hV => ?_⟩
    rw [hR] at hV
    cases hV
  exact wp_of_ok (Q := fun _ t => Kept K cfg now t) hspec hok

/-- What a close of a stamped receipt leaves. -/
def Storage.closed (s : Storage) (K : Keccak) (r : Receipt) : Storage :=
  { s with
    totalRewardDebt := s.totalRewardDebt - r.shares.val * s.entryRps (r.leaf K)
    entryRps := Function.update s.entryRps (r.leaf K) 0
    entryStamped := Function.update s.entryStamped (r.leaf K) false
    totalShares := s.totalShares - r.shares.val }

/-- A stamped receipt of the ledger closes whatever the state of the campaign, once the lock-up has passed. -/
theorem unbond_exits (h : Kept K cfg now s) (hsender : sender = cfg.pool) (hst : s.entryStamped (r.leaf K) = true)
    (hlock : s.lockUntil ≤ now) :
    onCdpClose cfg ⟨sender, now⟩ 0 0 (r.leaf K) [⟨r.asset, r.shares.val⟩] s = .ok () ((s.accrued now).closed K r) := by
  have hacc := h.accrued
  have hst' : (s.accrued now).entryStamped (r.leaf K) = true := hst
  have hR : cfg.receiptMode = true := by
    by_contra hV
    rw [h.vault (Bool.not_eq_true _ ▸ hV)] at hst
    cases hst
  rw [ok_iff_wp, onCdpClose, wp_bind, wp_check]
  refine ⟨fun hs => hs hsender, fun _ => ?_⟩
  rw [wp_bind, wp_check]
  refine ⟨fun hne => by simp at hne, fun _ => ?_⟩
  rw [wp_bind, wp_get, wp_bind, wp_check]
  refine ⟨fun hlt => absurd hlock (Nat.not_le.2 hlt), fun _ => ?_⟩
  rw [wp_bind, h.wide.wp_accrue]
  generalize s.accrued now = u at hacc hst'
  obtain ⟨L, hL, hlive⟩ := hacc.receipts hR
  have hmem := hL.mem_of_stamped hK hst'
  obtain ⟨hasset, hpos⟩ := hlive r hmem
  have hentry : u.entryRps (r.leaf K) ≤ u.rps := by
    rw [hL.entry r hmem, ← hL.index]
    exact L.entry_le r hmem
  have hdebt : r.shares.val * u.entryRps (r.leaf K) ≤ u.totalRewardDebt := by
    rw [hL.entry r hmem, ← hL.debt, ← hL.shares]
    exact le_debt hmem
  have htotal : r.shares.val ≤ u.totalShares := by
    rw [← hL.total, ← hL.shares r, ← leave_total hmem]
    exact Nat.le_add_left _ _
  have hfit : r.shares.val * u.entryRps (r.leaf K) < 2 ^ 256 :=
    calc r.shares.val * u.entryRps (r.leaf K) ≤ 2 ^ 64 * u.entryRps (r.leaf K) := Nat.mul_le_mul_right _ r.shares.isLt.le
      _ < 2 ^ 64 * 2 ^ 192 := Nat.mul_lt_mul_of_pos_left (hentry.trans_lt hacc.wide.rps_lt) (by decide)
      _ = 2 ^ 256 := by decide
  rw [wp_bind, stakeWeight, wp_bind, wp_check]
  refine ⟨fun hnil => List.cons_ne_nil _ _ hnil, fun _ => ?_⟩
  rw [stakeWeight.go, wp_bind, wp_check]
  refine ⟨fun hne => hne hasset, fun _ => ?_⟩
  rw [wp_bind, wp_check]
  refine ⟨fun h0 => hpos.ne' h0, fun _ => ?_⟩
  rw [wp_bind, wp_add, Nat.zero_add]
  refine ⟨fun hbig => absurd (r.shares.isLt.trans (by decide)) (Nat.not_lt.2 hbig), fun _ => ?_⟩
  rw [stakeWeight.go, wp_pure, wp_bind, retireStamp, wp_bind, wp_get, if_pos hR, wp_bind, wp_check]
  refine ⟨fun hno => by simp [hst'] at hno, fun _ => ?_⟩
  rw [wp_bind, wp_mul hfit, wp_bind, wp_sub hdebt, wp_modify, wp_bind, wp_get, wp_bind, wp_check]
  refine ⟨fun hlt => absurd htotal (Nat.not_le.2 hlt), fun _ => ?_⟩
  rw [wp_modify]
  exact ⟨rfl, rfl⟩

theorem Kept.closed (h : Kept K cfg now s) (hst : s.entryStamped (r.leaf K) = true) : Kept K cfg now (s.closed K r) where
  wide := { h.wide with }
  receipts hR := by
    obtain ⟨L, hL, hlive⟩ := h.receipts hR
    refine ⟨_, hL.leave hK (hL.mem_of_stamped hK hst), fun j hj => hlive j (Finset.mem_erase.1 hj).2⟩
  vault hV := by
    rw [h.vault hV] at hst
    cases hst

theorem unbond_kept (h : Kept K cfg now s)
    (hok : onCdpClose cfg ⟨sender, now⟩ 0 0 (r.leaf K) [⟨r.asset, r.shares.val⟩] s = .ok () t) : Kept K cfg now t := by
  have hstamps := fun w => onCdpClose_stamps (w := w) hok
  by_cases hst : s.entryStamped (r.leaf K) = true
  · have hsender : sender = cfg.pool ∧ s.lockUntil ≤ now := by
      have hok := hok
      simp only [onCdpClose, bind_eq_ok, check_eq_ok, get_eq_ok] at hok
      obtain ⟨_, _, ⟨hsender, rfl⟩, _, _, ⟨-, rfl⟩, _, _, ⟨rfl, rfl⟩, _, _, ⟨hlock, rfl⟩, -⟩ := hok
      exact ⟨not_not.1 hsender, Nat.not_lt.1 hlock⟩
    have hclosed := unbond_exits hK h hsender.1 hst hsender.2
    rw [hok] at hclosed
    injection hclosed with _ ht
    rw [ht]
    exact h.accrued.closed hK hst
  · obtain ⟨hV, u, hu, hsame⟩ := onCdpClose_unstamped hok (Bool.not_eq_true _ ▸ hst)
    exact h.of_vault hV hu hsame fun w hw => (hstamps w hw).1

end

/-! ## Governance keeps the books -/

/-- The calls that are not the pool's. -/
def Call.Governs : Call → Prop
  | .fund _ => True
  | .notifyRewardAmount _ _ => True
  | .recover _ _ => True
  | .setLockUntil _ => True
  | _ => False

/-- The state is as it was. -/
def Same (s t : Storage) : Prop := t = s

instance : IsPreorder Storage Same where
  refl _ := rfl
  trans _ _ _ h h' := Eq.trans h' h

theorem outstandingReward_same : Keeps Same outstandingReward :=
  .bind .get fun _ => .bind .orThrow fun _ => .bind .orThrow fun _ => .pure

theorem nextRate_same (env : Env) (reward duration : Nat) : Keeps Same (nextRate env reward duration) :=
  .bind .get fun _ => .ite .pure (.bind .orThrow fun _ => .bind .orThrow fun _ => .bind .orThrow fun _ => .pure)

theorem checkFunded_same (rate duration : Nat) : Keeps Same (checkFunded rate duration) :=
  .bind outstandingReward_same fun _ => .bind .orThrow fun _ => .bind .orThrow fun _ => .bind .get fun _ => .check

theorem Wide.accrue_eq (h : Wide now s) {u : Unit} (hok : accrue now s = .ok u t) : t = s.accrued now :=
  wp_of_ok (A := False) (E := fun _ _ => False) (Q := fun _ v => v = s.accrued now) (h.wp_accrue.2 rfl) hok

theorem notifyRewardAmount_kept {sender : Address} (h : Kept K cfg now s) {reward duration : Nat}
    (hok : notifyRewardAmount cfg ⟨sender, now⟩ reward duration s = .ok () t) : Kept K cfg now t := by
  simp only [notifyRewardAmount, bind_eq_ok, check_eq_ok, ite_eq_ok, modify_eq_ok] at hok
  obtain ⟨_, _, ⟨-, rfl⟩, _, s, ⟨-, rfl⟩, _, u, haccrue, rate, _, hrate, _, u', ⟨-, rfl⟩, _, v, ⟨hcap, hv⟩, hok⟩ := hok
  obtain rfl := h.wide.accrue_eq haccrue
  obtain rfl : u' = s.accrued now := nextRate_same _ _ _ hrate
  have hacc := h.accrued
  have hend : t.entryStamped = v.entryStamped ∧ t.entryRps = v.entryRps ∧ t.rps = v.rps ∧ t.totalShares = v.totalShares ∧
      t.totalRewardDebt = v.totalRewardDebt ∧ t.rate = rate ∧ t.lastUpdate = now := by
    obtain ⟨-, _, w, hfunded, n, _, hadd, rfl⟩ | ⟨-, n, _, hadd, rfl⟩ := hok
    · obtain rfl : w = v := checkFunded_same _ _ hfunded
      obtain ⟨-, rfl⟩ := orThrow_eq_ok.1 hadd
      exact ⟨rfl, rfl, rfl, rfl, rfl, rfl, rfl⟩
    · obtain ⟨-, rfl⟩ := orThrow_eq_ok.1 hadd
      exact ⟨rfl, rfl, rfl, rfl, rfl, rfl, rfl⟩
  subst hv
  obtain ⟨hstamped, hentry, hrps, htotal, hdebt, hr, hlast⟩ := hend
  refine hacc.congr ⟨hlast.le, hacc.wide.clock, ?_, ?_⟩ hstamped hentry hrps htotal hdebt
  · rw [hr]
    omega
  · rw [hrps, hlast]
    exact hacc.wide.rps_le.trans (Nat.mul_le_mul_left _ hacc.wide.time_le)

theorem recover_kept {sender recipient : Address} (h : Kept K cfg now s) {paid : Bool} {out : Nat}
    (hok : recover cfg ⟨sender, now⟩ recipient paid s = .ok out t) : Kept K cfg now t := by
  simp only [recover, release, bind_eq_ok, check_eq_ok, get_eq_ok, modify_eq_ok, pure_eq_ok] at hok
  obtain ⟨_, _, ⟨-, rfl⟩, _, _, ⟨-, rfl⟩, _, _, ⟨-, rfl⟩, _, _, ⟨rfl, rfl⟩, _, _, hadd, _, s, ⟨-, rfl⟩, _, _, haccrue,
    _, u, ⟨-, rfl⟩, owed, _, howed, _, v, ⟨rfl, rfl⟩, _, _, rfl, -, rfl⟩ := hok
  obtain ⟨-, rfl⟩ := orThrow_eq_ok.1 hadd
  obtain rfl := h.wide.accrue_eq haccrue
  obtain rfl : v = s.accrued now := outstandingReward_same howed
  exact h.accrued.withTreasury _

theorem setLockUntil_kept (h : Kept K cfg now s) {n : Nat} (hok : setLockUntil cfg env n s = .ok () t) :
    Kept K cfg now t := by
  simp only [setLockUntil, bind_eq_ok, check_eq_ok, get_eq_ok, modify_eq_ok] at hok
  obtain ⟨_, _, ⟨-, rfl⟩, _, _, ⟨rfl, rfl⟩, _, s, ⟨-, rfl⟩, rfl⟩ := hok
  exact h.congr { h.wide with } rfl rfl rfl rfl rfl

theorem governs_kept {sender : Address} (h : Kept K cfg now s) {c : Call} (hc : c.Governs)
    (hok : c.run K cfg ⟨sender, now⟩ s = .ok () t) : Kept K cfg now t := by
  cases c with
  | fund out =>
    simp only [Call.run, bind_eq_ok, get_eq_ok, modify_eq_ok] at hok
    obtain ⟨_, _, ⟨rfl, rfl⟩, n, s, hadd, rfl⟩ := hok
    obtain ⟨-, rfl⟩ := orThrow_eq_ok.1 hadd
    exact h.withTreasury n
  | notifyRewardAmount reward duration => exact notifyRewardAmount_kept h hok
  | recover recipient paid =>
    obtain ⟨out, v, hrec, hend⟩ := bind_eq_ok.1 hok
    obtain ⟨-, rfl⟩ := pure_eq_ok.1 hend
    exact recover_kept h hrec
  | setLockUntil n => exact setLockUntil_kept h hok
  | _ => exact hc.elim

theorem governs_sameStamps {c : Call} (hc : c.Governs) : Keeps SameStamps (c.run K cfg env) := by
  have hsame : ∀ {α : Type} {m : FarmM α}, Keeps Same m → Keeps SameStamps m := fun h => h.mono fun hst => by rw [hst]; rfl
  cases c with
  | fund out => exact .bind .get fun _ => .bind .orThrow fun _ => .modify fun _ => rfl
  | notifyRewardAmount reward duration =>
    refine .bind .check fun _ => .bind .check fun _ => .bind (accrue_sameStamps _) fun _ =>
      .bind (hsame (nextRate_same _ _ _)) fun _ => .bind .check fun _ => .bind .check fun _ => ?_
    apply Keeps.ite
    · exact .bind (hsame (checkFunded_same _ _)) fun _ => .bind .orThrow fun _ => .modify fun _ => rfl
    · exact .bind .orThrow fun _ => .modify fun _ => rfl
  | recover recipient paid =>
    refine .bind ?_ fun _ => .pure
    exact .bind .check fun _ => .bind .check fun _ => .bind .check fun _ => .bind .get fun _ => .bind .orThrow fun _ =>
      .bind .check fun _ => .bind (accrue_sameStamps _) fun _ => .bind .check fun _ =>
        .bind (hsame outstandingReward_same) fun _ => .bind .get fun _ => .bind (.modify fun _ => rfl) fun _ => .pure
  | setLockUntil n => exact .bind .check fun _ => .bind .get fun _ => .bind .check fun _ => .modify fun _ => rfl
  | _ => exact hc.elim

end FarmController

namespace SettleGuest

open FarmController in
/-- The farm controller at an address. Its lock-up is the one it has now. -/
def farmReceipts {K : Keccak} (hK : K.Ideal) (cfg : FarmController.Config) (address : U 160) : ReceiptController K where
  St := FarmController.Storage
  address := address
  stamped s w := s.entryStamped w
  start s := s
  fresh now s := now < 2 ^ 64 ∧ ∃ lock, s = construct lock now
  mint now m s t := ∃ n w, uintOfWord w = m.rateSnapshot ∧
    onCdpMint cfg ⟨cfg.pool, now⟩ m.legs m.debtValue m.positionLeaf w { s with treasury := n } = .ok () t
  topup _ _ _ _ := False
  close now c s t := ∃ w, uintOfWord w = c.rateSnapshot ∧
    onCdpClose cfg ⟨cfg.pool, now⟩ c.debtValue c.repaid w c.legs s = .ok () t
  liquidate _ _ _ _ := False
  own now now' s t := now ≤ now' ∧ now' < 2 ^ 64 ∧ (t = s ∨ ∃ sender n, ∃ c : FarmController.Call, c.Governs ∧
    c.run K cfg ⟨sender, now⟩ { s with treasury := n } = .ok () t)
  sound := Kept K cfg
  ready now s _ := s.lockUntil ≤ now
  start_stamped := rfl
  fresh_stamped := by
    rintro now s w ⟨-, lock, rfl⟩
    rfl
  mint_stamped := by
    rintro now m s t w ⟨n, x, hx, hok⟩ hw
    rcases onCdpMint_stamps hok hw with hold | ⟨hleaf, hdebt, rfl⟩
    · exact Or.inl hold
    · exact Or.inr ⟨hleaf, hdebt, hx.symm⟩
  topup_stamped h _ := h.elim
  close_stamped := by
    rintro now c s t w ⟨x, hx, hok⟩ hw
    obtain ⟨hold, hzero⟩ := onCdpClose_stamps hok hw
    exact ⟨hold, fun _ heq => hzero (uintOfWord_injective (heq.symm.trans hx.symm))⟩
  liquidate_stamped h _ := h.elim
  own_stamped := by
    rintro now now' s t w ⟨-, -, rfl | ⟨sender, n, c, hc, hok⟩⟩ hw
    · exact hw
    · have hsame : SameStamps _ _ := governs_sameStamps hc hok
      exact hsame ▸ hw
  start_sound h := h
  fresh_sound := by
    rintro now s ⟨hlt, lock, rfl⟩
    exact .construct hlt
  bond_sound := by
    rintro now r s t hs ⟨n, x, hx, hok⟩ hpos
    obtain rfl := uintOfWord_injective hx
    exact bond_kept hK (hs.withTreasury n) hpos hok
  harvest_sound := by
    rintro now r asset reward s t hs ⟨n, x, hx, hok⟩ hpos
    obtain rfl := uintOfWord_injective hx
    exact harvest_kept hK (hs.withTreasury n) hpos hok
  mint_sound := by
    rintro now m s t hs ⟨n, x, -, hok⟩ hne
    have hs : Kept K cfg (⟨cfg.pool, now⟩ : FarmController.Env).now _ := hs.withTreasury n
    exact position_kept hs hne hok
  topup_sound _ h := h.elim
  unbond_sound := by
    rintro now r s t hs ⟨x, hx, hok⟩
    obtain rfl := uintOfWord_injective hx
    exact unbond_kept hK hs hok
  close_sound := by
    rintro now c s t hs ⟨x, -, hok⟩ hdebt
    simp [onCdpClose, hdebt] at hok
  liquidate_sound _ h := h.elim
  own_sound := by
    rintro now now' s t hs ⟨hle, hlt, rfl | ⟨sender, n, c, hc, hok⟩⟩
    · exact hs.later hle hlt
    · exact (governs_kept (hs.withTreasury n) hc hok).later hle hlt
  exits := by
    rintro now s r hs hst hready
    exact ⟨_, r.leaf K, rfl, unbond_exits hK hs rfl hst hready⟩

end SettleGuest

end Tacit
