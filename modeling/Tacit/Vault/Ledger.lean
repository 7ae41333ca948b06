import Mathlib.Tactic.Linarith
import Mathlib.Tactic.Ring
import Tacit.Lib.Tally
import Tacit.Lib.Throws
import Tacit.Vault.TacVault
/-!
# The vault's ledger

`Inv` ties the totals to the vaults and the auctions to the clock. A call either moves one vault (`Moved`) or none
(`Idle`); what a bidder, a redeemer or the reserve takes is at most its share of the collateral, so the vault it took
from is no worse off (`Vault.Better`).
-/
namespace Tacit

open Prog

namespace TacVault

/-! ## Runs without an underflow -/

def Fair (e : VaultError) : Prop := e ≠ .underflow

/-- `m` does not end by an underflow; `Q` holds of its good end. -/
def Runs {α : Type} (m : Prog Storage VaultError α) (s : Storage) (Q : α → Storage → Prop) : Prop :=
  wp False m s (fun e _ => Fair e) Q

section
variable {α β : Type} {m : Prog Storage VaultError α} {k : α → Prog Storage VaultError β} {s : Storage}
  {Q : β → Storage → Prop}

theorem Runs.bind (h : Runs m s fun a t => Runs (k a) t Q) : Runs (m >>= k) s Q := wp_bind.2 h

theorem Runs.get {k : Storage → Prog Storage VaultError β} (h : Runs (k s) s Q) : Runs (Prog.get >>= k) s Q := .bind h

theorem Runs.modify {k : Unit → Prog Storage VaultError β} {f : Storage → Storage} (h : Runs (k ()) (f s) Q) :
    Runs (Prog.modify f >>= k) s Q := .bind h

theorem Runs.check {b : Prop} [Decidable b] {k : Unit → Prog Storage VaultError β} {e : VaultError} (he : Fair e)
    (h : ¬ b → Runs (k ()) s Q) : Runs (Prog.check b e >>= k) s Q :=
  .bind (wp_check.2 ⟨fun _ => he, h⟩)

theorem Runs.except {r : Except VaultError α} (hr : Refuses Fair r) (h : ∀ a, r = .ok a → Runs (k a) s Q) :
    Runs (Prog.ofExcept r >>= k) s Q :=
  .bind (wp_ofExcept.2 ⟨fun _ he => hr he, h⟩)

theorem Runs.mono {R : β → Storage → Prop} {m : Prog Storage VaultError β} (h : Runs m s Q) (hQ : ∀ b t, Q b t → R b t) :
    Runs m s R := wp_mono h id (fun _ _ he => he) hQ

end

/-! ## Results without an underflow -/

theorem add_eq_ok {a b c : Nat} : add a b = .ok c ↔ a + b < 2 ^ 256 ∧ c = a + b := by
  rw [add, need_eq_ok, uint256_eq_some]

theorem sub_eq_ok {a b c : Nat} : sub a b = .ok c ↔ b ≤ a ∧ c = a - b := by
  rw [sub, need_eq_ok, uintSub_eq_some]

theorem mul_eq_ok {a b c : Nat} : mul a b = .ok c ↔ a * b < 2 ^ 256 ∧ c = a * b := by
  rw [mul, need_eq_ok, uint256_eq_some]

theorem fullMulDiv_eq_ok {a b d c : Nat} (h : fullMulDiv a b d = .ok c) : 0 < d ∧ c = a * b / d := by
  simp only [fullMulDiv, except_bind_eq_ok, refuse_eq_ok, need_eq_ok, uint256_eq_some] at h
  obtain ⟨_, hd, -, rfl⟩ := h
  exact ⟨Nat.pos_of_ne_zero hd, rfl⟩

section Fair

variable {cfg : Config} {e : Env} {s : Storage} {a b d : Nat}

theorem fair_add : Refuses Fair (add a b) := .need (by simp [Fair])

theorem fair_mul : Refuses Fair (mul a b) := .need (by simp [Fair])

theorem fair_sub (h : b ≤ a) : Refuses Fair (sub a b) := by
  rw [sub, uintSub, if_pos h]
  rintro e ⟨⟩

theorem fair_fullMulDiv : Refuses Fair (fullMulDiv a b d) :=
  .bind (.refuse (by simp [Fair])) fun _ => .need (by simp [Fair])

/-- What is read from another contract. -/
theorem fair_external {α β : Type} {o : Option α} {k : α → Except VaultError β} (h : ∀ a, Refuses Fair (k a)) :
    Refuses Fair (need o .external >>= k) := .bind (.need (by simp [Fair])) h

theorem fair_inSynth {eth : Nat} : Refuses Fair (inSynth cfg e eth) := by
  refine fair_external fun f => .bind (.refuse (by simp [Fair])) fun _ => ?_
  intro err herr
  rcases except_bind_eq_error.1 herr with hstale | ⟨_, hfresh, hrest⟩
  · obtain ⟨-, rfl⟩ := refuse_eq_error.1 hstale
    simp [Fair]
  · -- the feed was not updated after now
    have hle : f.updatedAt ≤ e.now := by
      have := refuse_eq_ok.1 hfresh
      omega
    have hsub : Refuses Fair (do
        let age ← sub e.now f.updatedAt
        refuse (age > cfg.feedMaxStaleness) VaultError.staleFeed
        refuse (f.answeredInRound < f.roundId) VaultError.staleFeed
        let x ← mul eth f.answer.toNat
        return x / 10 ^ cfg.feedDecimals) :=
      .bind (fair_sub hle) fun _ => .bind (.refuse (by simp [Fair])) fun _ => .bind (.refuse (by simp [Fair])) fun _ =>
        .bind fair_mul fun _ => .pure
    exact hsub hrest

theorem fair_borrowUsdPerTac : Refuses Fair (borrowUsdPerTac cfg e s) :=
  fair_external fun _ => fair_external fun _ => fair_external fun _ => fair_external fun _ => fair_external fun _ =>
    fair_inSynth

theorem fair_liqUsdPerTac : Refuses Fair (liqUsdPerTac cfg e s) :=
  fair_external fun _ => fair_external fun _ => fair_external fun _ => fair_external fun _ => fair_inSynth

theorem fair_recoveryUsdPerTac : Refuses Fair (recoveryUsdPerTac cfg e s) :=
  fair_external fun _ => fair_external fun _ => fair_external fun _ => fair_external fun _ => fair_inSynth

theorem fair_offerUsdPerTac : Refuses Fair (offerUsdPerTac cfg e s) :=
  .bind fair_liqUsdPerTac fun _ => fair_external fun _ => .bind fair_inSynth fun _ => .pure

theorem fair_depth : Refuses Fair (depth cfg e s) :=
  fair_external fun _ => fair_external fun _ => fair_inSynth

theorem fair_recovered {owner : Address} : Refuses Fair (recovered cfg e s owner) :=
  .bind fair_recoveryUsdPerTac fun _ => .bind fair_fullMulDiv fun _ => .bind fair_mul fun _ => .bind fair_mul fun _ => .pure

theorem fair_requireBorrowHealthy {v : Vault} : Refuses Fair (requireBorrowHealthy cfg e s v) :=
  .bind fair_mul fun _ => .bind fair_borrowUsdPerTac fun _ => .bind fair_fullMulDiv fun _ => .bind fair_mul fun _ =>
    .refuse (by simp [Fair])

theorem fair_validate {t : Terms} {id : Param} {v : Nat} : Refuses Fair (validate cfg t id v) := by
  cases id with
  | minDebt => exact .bind (.refuse (by simp [Fair])) fun _ => .bind fair_mul fun _ => .refuse (by simp [Fair])
  | _ => exact .refuse (by simp [Fair])

theorem fair_checkWindows {o : Oracle} : Refuses Fair (checkWindows o) :=
  .bind (.refuse (by simp [Fair])) fun _ => fair_external fun _ => fair_external fun _ => fair_external fun _ =>
    .bind (.refuse (by simp [Fair])) fun _ => .pure

theorem fair_answersAt {o : Oracle} {w : Nat} : Refuses Fair (answersAt o w) :=
  fair_external fun _ => .bind (.refuse (by simp [Fair])) fun _ => fair_external fun _ =>
    .bind (.refuse (by simp [Fair])) fun _ => .bind (.refuse (by simp [Fair])) fun _ => .pure

theorem fair_answers {o : Oracle} : Refuses Fair (answers o) :=
  .bind fair_checkWindows fun _ => .bind fair_answersAt fun _ => .bind fair_answersAt fun _ => .bind fair_answersAt fun _ =>
    fair_external fun _ => .bind (.refuse (by simp [Fair])) fun _ => fair_external fun _ =>
      .bind (.refuse (by simp [Fair])) fun _ => fair_external fun _ => .bind (.refuse (by simp [Fair])) fun _ => .pure

theorem fair_within3 : Refuses Fair (within3 a b) := by
  refine .bind fair_mul fun b3 => ?_
  by_cases h : a ≤ b3
  · rw [if_pos h]
    exact .bind fair_mul fun _ => .pure
  · rw [if_neg h]
    exact .pure

theorem fair_continuous {o : Oracle} {price : Nat} : Refuses Fair (continuous o price) := by
  have hnear (x : Nat) : Refuses Fair (nearTo price x) := .ite fair_within3 .pure
  unfold continuous
  cases o.window.bind o.prices with
  | none => exact .pure
  | some p =>
    refine .bind (hnear p.1) fun byLow => ?_
    cases byLow with
    | true => exact .bind .pure fun _ => .pure
    | false => exact .bind (hnear p.2) fun _ => .pure

end Fair

/-! ## The clock -/

/-- The reading of `auctionTime`. -/
def Storage.clock (s : Storage) (now : Nat) : Nat := now - s.pausedBefore - (min now s.pausedUntil - s.pausedFrom)

/-- Pauses lie behind one another, the latest began no later than now. -/
structure Storage.Paced (s : Storage) (now : Nat) : Prop where
  ends : s.pausedFrom ≤ s.pausedUntil
  before : s.pausedBefore ≤ s.pausedFrom
  began : s.pausedFrom ≤ now

section Clock

variable {s : Storage} {now now' : Nat}

theorem Storage.Paced.later (h : s.Paced now) (hle : now ≤ now') : s.Paced now' := ⟨h.ends, h.before, h.began.trans hle⟩

theorem Storage.Paced.auctionTime (h : s.Paced now) : auctionTime now s = .ok (s.clock now) := by
  obtain ⟨h₁, h₂, h₃⟩ := h
  simp only [TacVault.auctionTime, except_bind_eq_ok, sub_eq_ok]
  exact ⟨_, ⟨by omega, rfl⟩, _, ⟨by omega, rfl⟩, by omega, rfl⟩

theorem Storage.Paced.clock_le (h : s.Paced now) (hle : now ≤ now') : s.clock now ≤ s.clock now' := by
  obtain ⟨h₁, h₂, h₃⟩ := h
  unfold Storage.clock
  omega

end Clock

/-! ## Moves -/

/-- Nothing of what the ledger reads has changed, and the vault holds no less TAC. -/
structure Idle (s t : Storage) : Prop where
  vaults : t.vaults = s.vaults
  totalDebt : t.totalDebt = s.totalDebt
  minted : t.minted = s.minted
  burned : t.burned = s.burned
  tac : s.tac ≤ t.tac

/-- `owner`'s vault is now `v`, and the totals have moved with it. -/
structure Moved (owner : Address) (v : Vault) (s t : Storage) : Prop where
  vaults : t.vaults = Function.update s.vaults owner v
  debt : t.totalDebt + (s.vaults owner).debt = s.totalDebt + v.debt
  supply : t.minted + s.totalDebt + s.burned = s.minted + t.totalDebt + t.burned
  tac : s.tac + v.collateral ≤ t.tac + (s.vaults owner).collateral

/-- The clock, the terms and the signatures are the same. -/
structure Calm (s t : Storage) : Prop where
  pausedFrom : t.pausedFrom = s.pausedFrom
  pausedUntil : t.pausedUntil = s.pausedUntil
  pausedBefore : t.pausedBefore = s.pausedBefore
  terms : t.terms = s.terms
  nonces : t.nonces = s.nonces
  signed : t.signed = s.signed

theorem Calm.refl (s : Storage) : Calm s s := ⟨rfl, rfl, rfl, rfl, rfl, rfl⟩

theorem Calm.trans {s t u : Storage} (h : Calm s t) (h' : Calm t u) : Calm s u :=
  ⟨h'.pausedFrom.trans h.pausedFrom, h'.pausedUntil.trans h.pausedUntil, h'.pausedBefore.trans h.pausedBefore,
    h'.terms.trans h.terms, h'.nonces.trans h.nonces, h'.signed.trans h.signed⟩

/-- `v'` is no worse than `v`: its debt has not grown and its collateral for each unit of debt has not fallen. -/
structure Vault.Better (v v' : Vault) : Prop where
  debt : v'.debt ≤ v.debt
  ratio : v.collateral * v'.debt ≤ v'.collateral * v.debt

theorem Vault.Better.refl (v : Vault) : v.Better v := ⟨le_refl _, le_refl _⟩

/-- **Taking a share**: `tac` is at most the share of the collateral that `amount` is of the debt. -/
theorem Vault.Better.share {v v' : Vault} {amount tac : Nat} (hdebt : v'.debt = v.debt - amount)
    (hcollateral : v'.collateral = v.collateral - tac) (hshare : tac * v.debt ≤ v.collateral * amount) : v.Better v' := by
  refine ⟨by omega, ?_⟩
  rw [hdebt, hcollateral, Nat.mul_sub, Nat.sub_mul]
  exact Nat.sub_le_sub_left hshare _

/-- A floored share is one. -/
theorem share_of_div {offer collateral amount debt : Nat} (h : offer ≤ collateral) :
    offer * amount / debt * debt ≤ collateral * amount :=
  (Nat.div_mul_le_self _ _).trans (Nat.mul_le_mul_right _ h)

section
variable {cfg : Config} {e : Env} {s : Storage} {owner payee : Address} {amount : Nat}

theorem runs_endAuction : Runs (endAuction owner) s fun _ t =>
    t = s.setVault owner { s.vaults owner with auctionStart := 0 } := rfl

/-- What `_tryEnd` may do. -/
theorem runs_tryEnd : Runs (tryEnd cfg e owner) s fun _ t => ∃ start, start ≤ (s.vaults owner).auctionStart ∧
    t = s.setVault owner { s.vaults owner with auctionStart := start } := by
  have hsame : s = s.setVault owner { s.vaults owner with auctionStart := (s.vaults owner).auctionStart } := by
    simp [Storage.setVault]
  refine .get ?_
  by_cases h : (s.vaults owner).debt = 0
  · rw [if_pos h]
    exact ⟨0, Nat.zero_le _, rfl⟩
  · rw [if_neg h]
    cases recovered cfg e s owner with
    | error err => exact ⟨_, le_refl _, hsame⟩
    | ok ok =>
      cases ok with
      | true => exact ⟨0, Nat.zero_le _, rfl⟩
      | false => exact ⟨_, le_refl _, hsame⟩

theorem runs_ifTryEnd {b : Prop} [Decidable b] : Runs (onlyIf b (tryEnd cfg e owner)) s fun _ t =>
    ∃ start, start ≤ (s.vaults owner).auctionStart ∧
      t = s.setVault owner { s.vaults owner with auctionStart := start } := by
  unfold onlyIf
  by_cases h : b
  · rw [if_pos h]
    exact runs_tryEnd
  · rw [if_neg h]
    exact ⟨_, le_refl _, by simp [Storage.setVault]⟩

theorem runs_pullTac : Runs (pullTac e amount) s fun _ t => t = { s with tac := s.tac + amount } :=
  .check (by simp [Fair]) fun _ => rfl

theorem runs_sendTac : Runs (sendTac cfg e payee amount) s fun _ t =>
    ∃ left, s.tac ≤ left + amount ∧ t = { s with tac := left } := by
  refine .get (.check (by simp [Fair]) fun h => ⟨_, ?_, rfl⟩)
  by_cases hself : payee = cfg.self
  · rw [if_pos hself]
    omega
  · rw [if_neg hself]
    omega

theorem runs_mintSynth : Runs (mintSynth e payee amount) s fun _ t =>
    ∃ synth, t = { s with synth := synth, minted := s.minted + amount } :=
  .check (by simp [Fair]) fun _ => ⟨_, rfl⟩

theorem runs_burnSynth : Runs (burnSynth e payee amount) s fun _ t =>
    ∃ synth, t = { s with synth := synth, burned := s.burned + amount } :=
  .get (.check (by simp [Fair]) fun _ => ⟨_, rfl⟩)

end

/-! ## The calls on a vault -/

/-- A call moved `owner`'s vault to one that `P` holds of; its auction did not begin any later. -/
def Touches (P : Vault → Prop) (owner : Address) (s t : Storage) : Prop :=
  Calm s t ∧ ∃ v, v.auctionStart ≤ (s.vaults owner).auctionStart ∧ Moved owner v s t ∧ P v

/-- What the invariant tells a call of one vault. -/
structure Known (s : Storage) (now : Nat) (owner : Address) : Prop where
  owed : (s.vaults owner).debt ≤ s.totalDebt
  paced : s.Paced now
  started : (s.vaults owner).auctionStart ≤ s.clock now
  ratio : BPS ≤ s.terms.liqRatioBps
  fee : s.terms.redemptionFeeBps ≤ maxRedemptionFeeBps

section
variable {cfg : Config} {e : Env} {s : Storage} {owner payee : Address} {amount limit : Nat}

@[simp] theorem setVault_vaults (v : Vault) : (s.setVault owner v).vaults = Function.update s.vaults owner v := rfl

theorem runs_depositFor : Runs (depositFor cfg e owner amount) s fun _ t =>
    Touches (s.vaults owner).Better owner s t := by
  refine .check (by simp [Fair]) fun _ => .get (.except fair_add fun collateral hcollateral => .modify (.bind ?_))
  obtain ⟨-, rfl⟩ := add_eq_ok.1 hcollateral
  refine runs_ifTryEnd.mono fun _ t ⟨start, hstart, ht⟩ => ?_
  subst ht
  refine runs_pullTac.mono fun _ u hu => ?_
  subst hu
  simp only [setVault_vaults, Function.update_self] at hstart ⊢
  refine ⟨⟨rfl, rfl, rfl, rfl, rfl, rfl⟩, ⟨(s.vaults owner).collateral + amount, (s.vaults owner).debt, start⟩, hstart,
    ⟨?_, rfl, rfl, ?_⟩, ⟨le_refl _, ?_⟩⟩
  · simp [Function.update_idem]
  · simp only [Storage.setVault]
    omega
  · exact Nat.mul_le_mul_right _ (Nat.le_add_right _ _)

theorem runs_withdrawTo : Runs (withdrawTo cfg e owner amount payee) s fun _ t => Touches (fun _ => True) owner s t := by
  refine .get (.check (by simp [Fair]) fun _ => .check (by simp [Fair]) fun _ => ?_)
  refine .except (fair_sub (min_le_right _ _)) fun collateral hcollateral => .modify (.get (.except ?_ fun _ _ => ?_))
  · exact .ite fair_requireBorrowHealthy .pure
  · obtain ⟨hle, rfl⟩ := sub_eq_ok.1 hcollateral
    refine runs_sendTac.mono fun _ u ⟨left, hleft, hu⟩ => ?_
    subst hu
    refine ⟨⟨rfl, rfl, rfl, rfl, rfl, rfl⟩, { s.vaults owner with
      collateral := (s.vaults owner).collateral - min amount (s.vaults owner).collateral }, le_refl _,
      ⟨rfl, rfl, rfl, ?_⟩, trivial⟩
    simp only [Storage.setVault] at hleft ⊢
    omega

theorem runs_borrowTo : Runs (borrowTo cfg e owner amount limit payee) s fun _ t => Touches (fun _ => True) owner s t := by
  refine .get (.check (by simp [Fair]) fun _ => .check (by simp [Fair]) fun _ => .check (by simp [Fair]) fun _ => ?_)
  refine .except fair_mul fun scaled _ => .except fair_add fun debt₁ hdebt₁ => .except fair_add fun debt hdebt => ?_
  refine .check (by simp [Fair]) fun _ => .except fair_add fun total₁ htotal₁ => ?_
  refine .except fair_add fun total htotal => ?_
  refine .check (by simp [Fair]) fun _ => .except fair_depth fun _ _ => ?_
  refine .except fair_mul fun _ _ => .except fair_mul fun _ _ => ?_
  refine .check (by simp [Fair]) fun _ => .modify (.get (.except fair_requireBorrowHealthy fun _ _ => .bind ?_))
  obtain ⟨-, rfl⟩ := add_eq_ok.1 hdebt₁
  obtain ⟨-, rfl⟩ := add_eq_ok.1 hdebt
  obtain ⟨-, rfl⟩ := add_eq_ok.1 htotal₁
  obtain ⟨-, rfl⟩ := add_eq_ok.1 htotal
  refine runs_mintSynth.mono fun _ t ⟨synth, ht⟩ => ?_
  subst ht
  -- the debt grows by what is minted, with the fee or without one
  have hmoved (synth : Address → Nat) (fee : Nat) (hfee : fee = scaled / BPS) :
      Touches (fun _ => True) owner s { s.setVault owner { s.vaults owner with
        debt := (s.vaults owner).debt + amount + scaled / BPS } with
          totalDebt := s.totalDebt + amount + scaled / BPS, synth := synth, minted := s.minted + amount + fee } := by
    refine ⟨⟨rfl, rfl, rfl, rfl, rfl, rfl⟩, { s.vaults owner with
      debt := (s.vaults owner).debt + amount + scaled / BPS }, le_refl _, ⟨rfl, ?_, ?_, ?_⟩, trivial⟩
    · simp only
      omega
    · simp only [Storage.setVault]
      omega
    · simp only [Storage.setVault]
      omega
  unfold onlyIf
  by_cases hfee : scaled / BPS ≠ 0
  · rw [if_pos hfee]
    refine runs_mintSynth.mono fun _ u ⟨synth', hu⟩ => ?_
    subst hu
    exact hmoved synth' _ rfl
  · rw [if_neg hfee]
    exact hmoved synth 0 (by omega)

/-- The state after `amount` of `owner`'s debt was burned for `tac` of its collateral. -/
def Storage.repaid (s : Storage) (owner : Address) (amount tac start left : Nat) (synth : Address → Nat) : Storage :=
  { s with
    vaults := Function.update s.vaults owner ⟨(s.vaults owner).collateral - tac, (s.vaults owner).debt - amount, start⟩
    totalDebt := s.totalDebt - amount
    synth := synth
    burned := s.burned + amount
    tac := left }

/-- **Burning debt for no more than its share of the collateral.** -/
theorem touches_repaid {tac start left : Nat} {synth : Address → Nat} (h : (s.vaults owner).debt ≤ s.totalDebt)
    (hamount : amount ≤ (s.vaults owner).debt) (htac : tac ≤ (s.vaults owner).collateral)
    (hshare : tac * (s.vaults owner).debt ≤ (s.vaults owner).collateral * amount)
    (hstart : start ≤ (s.vaults owner).auctionStart) (hleft : s.tac ≤ left + tac) :
    Touches (s.vaults owner).Better owner s (s.repaid owner amount tac start left synth) := by
  refine ⟨⟨rfl, rfl, rfl, rfl, rfl, rfl⟩,
    ⟨(s.vaults owner).collateral - tac, (s.vaults owner).debt - amount, start⟩, hstart, ⟨rfl, ?_, ?_, ?_⟩,
    Vault.Better.share rfl rfl hshare⟩
  · show s.totalDebt - amount + (s.vaults owner).debt = s.totalDebt + ((s.vaults owner).debt - amount)
    omega
  · show s.minted + s.totalDebt + s.burned = s.minted + (s.totalDebt - amount) + (s.burned + amount)
    omega
  · show s.tac + ((s.vaults owner).collateral - tac) ≤ left + (s.vaults owner).collateral
    omega

/-- What follows the update of the vault in a bid and in an absorption: the auction may end, the debt is burned and the
collateral sent. -/
theorem runs_settle {debtor receiver : Address} {tac : Nat} (h : (s.vaults owner).debt ≤ s.totalDebt)
    (hamount : amount ≤ (s.vaults owner).debt) (htac : tac ≤ (s.vaults owner).collateral)
    (hshare : tac * (s.vaults owner).debt ≤ (s.vaults owner).collateral * amount) :
    Runs (do
      tryEnd cfg e owner
      burnSynth e debtor amount
      sendTac cfg e receiver tac) { s.setVault owner { s.vaults owner with
        collateral := (s.vaults owner).collateral - tac, debt := (s.vaults owner).debt - amount } with
          totalDebt := s.totalDebt - amount } fun _ t => Touches (s.vaults owner).Better owner s t := by
  refine .bind (runs_tryEnd.mono fun _ t ⟨start, hstart, ht⟩ => ?_)
  subst ht
  refine .bind (runs_burnSynth.mono fun _ t ⟨synth, ht⟩ => ?_)
  subst ht
  refine runs_sendTac.mono fun _ t ⟨left, hleft, ht⟩ => ?_
  subst ht
  simp only [setVault_vaults, Function.update_self] at hstart
  have hrepaid : Touches (s.vaults owner).Better owner s (s.repaid owner amount tac start left synth) :=
    touches_repaid h hamount htac hshare hstart hleft
  simpa [Storage.setVault, Storage.repaid] using hrepaid

theorem runs_repay (h : Known s e.now owner) : Runs (repay cfg e owner amount) s fun _ t =>
    Touches (s.vaults owner).Better owner s t := by
  have hpaid : min amount (s.vaults owner).debt ≤ (s.vaults owner).debt := min_le_right _ _
  have howed := h.owed
  refine .get (.check (by simp [Fair]) fun _ => .except (fair_sub hpaid) fun debt hdebt => .check (by simp [Fair]) fun _ => ?_)
  refine .except (fair_sub (hpaid.trans howed)) fun total htotal => .modify (.bind ?_)
  obtain ⟨-, rfl⟩ := sub_eq_ok.1 hdebt
  obtain ⟨-, rfl⟩ := sub_eq_ok.1 htotal
  refine runs_ifTryEnd.mono fun _ t ⟨start, hstart, ht⟩ => ?_
  subst ht
  refine runs_burnSynth.mono fun _ u ⟨synth, hu⟩ => ?_
  subst hu
  simp only [setVault_vaults, Function.update_self] at hstart
  have hrepaid : Touches (s.vaults owner).Better owner s
      (s.repaid owner (min amount (s.vaults owner).debt) 0 start s.tac synth) :=
    touches_repaid howed hpaid (Nat.zero_le _) (by simp) hstart (le_refl _)
  simpa [Storage.setVault, Storage.repaid] using hrepaid

/-- An offer is at most the collateral. -/
theorem offer_ok {most : Nat} {priced : Bool} (h : offer cfg e s owner = .ok (most, priced)) :
    most ≤ (s.vaults owner).collateral := by
  unfold offer at h
  cases hprice : offerUsdPerTac cfg e s with
  | error err =>
    simp only [hprice, Except.ok.injEq, Prod.mk.injEq] at h
    exact h.1.ge
  | ok price =>
    simp only [hprice, except_bind_eq_ok, except_pure_eq_ok, Prod.mk.injEq] at h
    obtain ⟨_, _, _, _, _, _, _, _, _, _, _, _, rfl, -⟩ := h
    exact min_le_left _ _

theorem fair_offer (h : Known s e.now owner) : Refuses Fair (offer cfg e s owner) := by
  unfold offer
  cases offerUsdPerTac cfg e s with
  | error err => exact .pure
  | ok price =>
    refine .bind_of_ok h.paced.auctionTime <| .bind (fair_sub h.started) fun _ => .bind fair_mul fun _ => ?_
    exact .bind fair_add fun _ => .bind fair_mul fun _ => .bind fair_fullMulDiv fun _ => .pure

theorem fair_checkBidder {priced : Bool} (h : Known s e.now owner) : Refuses Fair (checkBidder cfg e s owner priced) := by
  refine .bind (.refuse (by simp [Fair])) fun _ => .bind_of_ok h.paced.auctionTime <| .bind fair_add fun _ => ?_
  refine .bind (.refuse (by simp [Fair])) fun _ => .bind (.refuse (by simp [Fair])) fun _ => ?_
  cases recovered cfg e s owner with
  | error err => exact fun _ herr => by cases herr; simp [Fair]
  | ok ok => exact .refuse (by simp [Fair])

theorem runs_bid (h : Known s e.now owner) : Runs (bid cfg e owner amount limit) s fun _ t =>
    Touches (s.vaults owner).Better owner s t := by
  have hamount : min amount (s.vaults owner).debt ≤ (s.vaults owner).debt := min_le_right _ _
  refine .get (.check (by simp [Fair]) fun _ => .except (fair_offer h) fun offered hoffer => .except ?_ fun _ _ => ?_)
  · exact .ite (fair_checkBidder h) .pure
  have hmost := offer_ok hoffer
  refine .check (by simp [Fair]) fun hpos => ?_
  refine .except (fair_sub hamount) fun debt hdebt => .check (by simp [Fair]) fun _ => ?_
  refine .except fair_mul fun scaled hscaled => .check (by simp [Fair]) fun _ => ?_
  obtain ⟨-, rfl⟩ := sub_eq_ok.1 hdebt
  obtain ⟨-, rfl⟩ := mul_eq_ok.1 hscaled
  have hshare : offered.1 * min amount (s.vaults owner).debt / (s.vaults owner).debt * (s.vaults owner).debt ≤
      (s.vaults owner).collateral * min amount (s.vaults owner).debt := share_of_div hmost
  have htaken : offered.1 * min amount (s.vaults owner).debt / (s.vaults owner).debt ≤ (s.vaults owner).collateral := by
    refine Nat.le_of_mul_le_mul_right (hshare.trans (Nat.mul_le_mul_left _ hamount)) ?_
    omega
  refine .except (fair_sub htaken) fun collateral hcollateral => .except (fair_sub (hamount.trans h.owed)) fun total htotal =>
    .modify ?_
  obtain ⟨-, rfl⟩ := sub_eq_ok.1 hcollateral
  obtain ⟨-, rfl⟩ := sub_eq_ok.1 htotal
  exact runs_settle h.owed hamount htaken hshare

/-- The reserve burns no more than the debt. -/
theorem absorbed_ok {debt reserve minDebt : Nat} (h : absorbed debt reserve minDebt = .ok amount) : amount ≤ debt := by
  unfold absorbed at h
  by_cases hlt : reserve < debt
  · simp only [if_pos hlt, except_bind_eq_ok, sub_eq_ok, except_pure_eq_ok] at h
    obtain ⟨_, -, _, ⟨-, rfl⟩, rfl⟩ := h
    omega
  · rw [if_neg hlt, Except.ok.injEq] at h
    omega

theorem fair_absorbed {debt reserve minDebt : Nat} : Refuses Fair (absorbed debt reserve minDebt) := by
  refine .ite ?_ .pure
  by_cases hle : debt ≤ minDebt
  · intro err herr
    rcases except_bind_eq_error.1 herr with hsmall | ⟨_, hlarge, -⟩
    · obtain ⟨-, rfl⟩ := refuse_eq_error.1 hsmall
      simp [Fair]
    · exact absurd hle (refuse_eq_ok.1 hlarge)
  · exact .bind (.refuse (by simp [Fair])) fun _ => .bind (fair_sub (by omega)) fun _ => .pure

theorem runs_absorb (h : Known s e.now owner) : Runs (absorb cfg e owner) s fun _ t =>
    Touches (s.vaults owner).Better owner s t := by
  refine .get (.check (by simp [Fair]) fun _ => .check (by simp [Fair]) fun _ => .except ?_ fun t ht => ?_)
  · rw [h.paced.auctionTime]
    exact .pure
  rw [h.paced.auctionTime, Except.ok.injEq] at ht
  subst ht
  refine .except (fair_sub h.started) fun since _ => ?_
  refine .check (by simp [Fair]) fun _ => .except fair_liqUsdPerTac fun price _ => ?_
  refine .except fair_fullMulDiv fun worth _ => ?_
  refine .check (by simp [Fair]) fun hworth => .except fair_absorbed fun amount ha => ?_
  have hamount := absorbed_ok ha
  refine .check (by simp [Fair]) fun _ => .except fair_mul fun scaled hscaled => ?_
  refine .except (fair_sub hamount) fun debt hdebt => ?_
  obtain ⟨-, rfl⟩ := sub_eq_ok.1 hdebt
  obtain ⟨-, rfl⟩ := mul_eq_ok.1 hscaled
  have hshare : (s.vaults owner).collateral * amount / (s.vaults owner).debt * (s.vaults owner).debt ≤
      (s.vaults owner).collateral * amount := share_of_div (le_refl _)
  have htac : (s.vaults owner).collateral * amount / (s.vaults owner).debt ≤ (s.vaults owner).collateral := by
    refine Nat.le_of_mul_le_mul_right (hshare.trans (Nat.mul_le_mul_left _ hamount)) ?_
    omega
  refine .except (fair_sub htac) fun collateral hcollateral => .except (fair_sub (hamount.trans h.owed)) fun total htotal =>
    .modify ?_
  obtain ⟨-, rfl⟩ := sub_eq_ok.1 hcollateral
  obtain ⟨-, rfl⟩ := sub_eq_ok.1 htotal
  exact runs_settle h.owed hamount htac hshare

/-- The offer view is no lower than the liquidation view. -/
theorem offer_ge_liq {liq offered : Nat} (h : liqUsdPerTac cfg e s = .ok liq) (h' : offerUsdPerTac cfg e s = .ok offered) :
    liq ≤ offered := by
  simp only [offerUsdPerTac, except_bind_eq_ok, except_pure_eq_ok] at h'
  obtain ⟨_, hliq, _, -, _, -, rfl⟩ := h'
  rw [h, Except.ok.injEq] at hliq
  exact hliq ▸ le_max_left _ _

/-- **What a redeemer takes**: the vault is worth its debt at the liquidation view, and the TAC is sold no cheaper. -/
theorem redeemed_share {collateral debt price worth ratio amount paid offered tac : Nat}
    (hworth : worth = collateral * price / WAD) (hratio : BPS ≤ ratio) (hfloor : ratio = worth * BPS / debt) (hdebt : 0 < debt)
    (hpaid : paid ≤ amount) (htac : tac = paid * WAD / offered) (hoffer : price ≤ offered) :
    tac * debt ≤ collateral * amount := by
  have hBPS : 0 < BPS := by decide
  have hWAD : 0 < WAD := by decide
  -- the debt is covered at the liquidation price
  have hcovered : debt ≤ worth := by
    have : BPS * debt ≤ worth * BPS := (Nat.mul_le_mul_right _ (hfloor ▸ hratio)).trans (Nat.div_mul_le_self _ _)
    nlinarith
  have hvalue : debt * WAD ≤ collateral * price :=
    (Nat.mul_le_mul_right _ hcovered).trans (hworth ▸ Nat.div_mul_le_self _ _)
  have hprice : 0 < price := by
    rcases Nat.eq_zero_or_pos price with h0 | h0
    · rw [h0, Nat.mul_zero] at hvalue
      have := Nat.mul_pos hdebt hWAD
      omega
    · exact h0
  have hsold : tac * price ≤ amount * WAD := by
    calc tac * price ≤ tac * offered := Nat.mul_le_mul_left _ hoffer
      _ ≤ paid * WAD := htac ▸ Nat.div_mul_le_self _ _
      _ ≤ amount * WAD := Nat.mul_le_mul_right _ hpaid
  refine Nat.le_of_mul_le_mul_right ?_ hprice
  calc tac * debt * price = tac * price * debt := by ring
    _ ≤ amount * WAD * debt := Nat.mul_le_mul_right _ hsold
    _ = amount * (debt * WAD) := by ring
    _ ≤ amount * (collateral * price) := Nat.mul_le_mul_left _ hvalue
    _ = collateral * amount * price := by ring

theorem runs_redeem (h : Known s e.now owner) : Runs (redeem cfg e owner amount limit) s fun _ t =>
    Touches (s.vaults owner).Better owner s t := by
  refine .get (.check (by simp [Fair]) fun _ => .check (by simp [Fair]) fun _ => .check (by simp [Fair]) fun hrange => ?_)
  have hamount : amount ≤ (s.vaults owner).debt := by omega
  refine .except (fair_sub hamount) fun debt hdebt => .check (by simp [Fair]) fun _ => ?_
  refine .except fair_liqUsdPerTac fun price hprice => .except fair_fullMulDiv fun worth hworth => ?_
  refine .except fair_mul fun scaled hscaled => ?_
  refine .check (by simp [Fair]) fun hlow => .except fair_mul fun twice htwice => ?_
  refine .check (by simp [Fair]) fun hhigh => ?_
  refine .except (fair_sub (by omega)) fun above habove => .except fair_mul fun rise hrise => ?_
  obtain ⟨-, rfl⟩ := sub_eq_ok.1 hdebt
  obtain ⟨-, rfl⟩ := mul_eq_ok.1 hscaled
  obtain ⟨-, rfl⟩ := mul_eq_ok.1 htwice
  obtain ⟨-, rfl⟩ := sub_eq_ok.1 habove
  obtain ⟨-, rfl⟩ := mul_eq_ok.1 hrise
  obtain ⟨-, hworth⟩ := fullMulDiv_eq_ok hworth
  refine .except fair_add fun fee hfee => ?_
  obtain ⟨-, rfl⟩ := add_eq_ok.1 hfee
  -- the fee is at most four times the redemption fee
  have hkept : s.terms.redemptionFeeBps + s.terms.redemptionFeeBps * 3 *
      (worth * BPS / (s.vaults owner).debt - s.terms.liqRatioBps) / s.terms.liqRatioBps ≤ BPS := by
    have hfee := h.fee
    have hrise : s.terms.redemptionFeeBps * 3 * (worth * BPS / (s.vaults owner).debt - s.terms.liqRatioBps) /
        s.terms.liqRatioBps ≤ s.terms.redemptionFeeBps * 3 := by
      refine Nat.div_le_of_le_mul ?_
      rw [Nat.mul_comm s.terms.liqRatioBps]
      exact Nat.mul_le_mul_left _ (by omega)
    have hmax : 4 * maxRedemptionFeeBps ≤ BPS := by decide
    omega
  refine .except (fair_sub hkept) fun kept hkept' => .except fair_mul fun paid hpaid => ?_
  refine .except fair_offerUsdPerTac fun offered hoffered => .except fair_fullMulDiv fun tac htac => ?_
  refine .check (by simp [Fair]) fun hbad => ?_
  obtain ⟨-, rfl⟩ := sub_eq_ok.1 hkept'
  obtain ⟨-, rfl⟩ := mul_eq_ok.1 hpaid
  obtain ⟨-, htac⟩ := fullMulDiv_eq_ok htac
  have hle : tac ≤ (s.vaults owner).collateral := by omega
  have hratio : BPS ≤ worth * BPS / (s.vaults owner).debt := h.ratio.trans (by omega)
  have hpaid : amount * (BPS - (s.terms.redemptionFeeBps + s.terms.redemptionFeeBps * 3 *
      (worth * BPS / (s.vaults owner).debt - s.terms.liqRatioBps) / s.terms.liqRatioBps)) / BPS ≤ amount := by
    refine Nat.div_le_of_le_mul ?_
    rw [Nat.mul_comm BPS]
    exact Nat.mul_le_mul_left _ (Nat.sub_le _ _)
  have hshare := redeemed_share hworth hratio rfl (by omega) hpaid htac (offer_ge_liq hprice hoffered)
  refine .except (fair_sub hle) fun collateral hcollateral => .except (fair_sub (hamount.trans h.owed)) fun total htotal =>
    .modify (.bind ?_)
  obtain ⟨-, rfl⟩ := sub_eq_ok.1 hcollateral
  obtain ⟨-, rfl⟩ := sub_eq_ok.1 htotal
  refine runs_burnSynth.mono fun _ t ⟨synth, ht⟩ => ?_
  subst ht
  refine runs_sendTac.mono fun _ t ⟨left, hleft, ht⟩ => ?_
  subst ht
  exact touches_repaid h.owed hamount hle hshare (le_refl _) hleft

theorem runs_liquidate (h : Known s e.now owner) : Runs (liquidate cfg e owner) s fun _ t =>
    t = s.setVault owner { s.vaults owner with auctionStart := s.clock e.now } := by
  refine .get (.check (by simp [Fair]) fun _ => .check (by simp [Fair]) fun _ => .check (by simp [Fair]) fun _ => ?_)
  refine .except fair_liqUsdPerTac fun _ _ => .except fair_fullMulDiv fun _ _ => .except fair_mul fun _ _ => ?_
  refine .except fair_mul fun _ _ => .check (by simp [Fair]) fun _ => .except ?_ fun t ht => ?_
  · rw [h.paced.auctionTime]
    exact .pure
  · rw [h.paced.auctionTime, Except.ok.injEq] at ht
    subst ht
    exact rfl

theorem runs_cancel : Runs (cancel cfg e owner) s fun _ t => Touches (s.vaults owner).Better owner s t := by
  refine .get (.check (by simp [Fair]) fun _ => .except fair_recovered fun _ _ => .check (by simp [Fair]) fun _ => ?_)
  refine runs_endAuction.mono fun _ t ht => ?_
  subst ht
  exact ⟨⟨rfl, rfl, rfl, rfl, rfl, rfl⟩, _, Nat.zero_le _, ⟨rfl, rfl, rfl, le_refl _⟩, ⟨le_refl _, le_refl _⟩⟩

/-! ## Signatures -/

/-- A nonce is used and its signature checked. -/
def Signs (cfg : Config) (e : Env) (sig : Signature) (s t : Storage) : Prop :=
  sig.nonce = s.nonces sig.owner ∧
    (cfg.recover sig.digest sig.bytes = sig.owner ∨ e.erc1271 sig.owner sig.digest sig.bytes = true) ∧
    t = { s with nonces := Function.update s.nonces sig.owner (sig.nonce + 1), signed := s.signed ++ [sig] }

theorem runs_useNonceOf : Runs (useNonceOf owner) s fun nonce t => nonce = s.nonces owner ∧
    t = { s with nonces := Function.update s.nonces owner (nonce + 1) } := by
  refine .get (.except fair_add fun next hnext => .modify ?_)
  obtain ⟨-, rfl⟩ := add_eq_ok.1 hnext
  exact ⟨rfl, rfl⟩

theorem runs_authorize {sig : Signature} {deadline : Nat} : Runs (authorize cfg e sig payee deadline) s fun _ t =>
    (cfg.recover sig.digest sig.bytes = sig.owner ∨ e.erc1271 sig.owner sig.digest sig.bytes = true) ∧
      t = { s with signed := s.signed ++ [sig] } := by
  refine .check (by simp [Fair]) fun _ => .check (by simp [Fair]) fun _ => .check (by simp [Fair]) fun hsig => ?_
  refine ⟨?_, rfl⟩
  by_contra hne
  rw [not_or] at hne
  exact hsig ⟨hne.1, by simpa using hne.2⟩

theorem runs_withdrawFor {deadline : Nat} {bytes : Bytes} :
    Runs (withdrawFor cfg e owner amount payee deadline bytes) s fun _ t => ∃ nonce u,
      Signs cfg e ⟨owner, nonce, digest cfg (withdrawTypehash cfg) [owner, amount, payee, nonce, deadline], bytes⟩ s u ∧
        Touches (fun _ => True) owner u t := by
  refine .bind (runs_useNonceOf.mono fun nonce t ⟨hnonce, ht⟩ => ?_)
  subst ht
  refine .bind (runs_authorize.mono fun _ t ⟨hsig, ht⟩ => ?_)
  subst ht
  exact runs_withdrawTo.mono fun _ t ht => ⟨nonce, _, ⟨hnonce, hsig, rfl⟩, ht⟩

theorem runs_borrowFor {minCollateral deadline : Nat} {bytes : Bytes} :
    Runs (borrowFor cfg e owner amount limit minCollateral payee deadline bytes) s fun _ t => ∃ nonce u,
      Signs cfg e ⟨owner, nonce, digest cfg (borrowTypehash cfg) [owner, amount, limit, minCollateral, payee, nonce, deadline],
        bytes⟩ s u ∧ Touches (fun _ => True) owner u t := by
  refine .bind (runs_useNonceOf.mono fun nonce t ⟨hnonce, ht⟩ => ?_)
  subst ht
  refine .bind (runs_authorize.mono fun _ t ⟨hsig, ht⟩ => ?_)
  subst ht
  refine .get (.check (by simp [Fair]) fun _ => ?_)
  exact runs_borrowTo.mono fun _ t ht => ⟨nonce, _, ⟨hnonce, hsig, rfl⟩, ht⟩

end

/-! ## The owner's calls -/

/-- Terms that the constructor and every change admit. -/
structure Terms.Sound (t : Terms) : Prop where
  ratio : minLiqRatioBps ≤ t.liqRatioBps
  fee : t.redemptionFeeBps ≤ maxRedemptionFeeBps

/-- What a call of the owner or the pauser leaves: the ledger is idle, the terms are sound, the clock reads the same. -/
structure Governs (now : Nat) (s t : Storage) : Prop where
  idle : Idle s t
  terms : s.terms.Sound → t.terms.Sound
  clock : s.Paced now → t.Paced now ∧ t.clock now = s.clock now
  nonces : t.nonces = s.nonces
  signed : t.signed = s.signed

/-- Calls that leave the clock alone. -/
theorem governs_of {now : Nat} {s t : Storage} (hidle : Idle s t) (hterms : s.terms.Sound → t.terms.Sound)
    (hfrom : t.pausedFrom = s.pausedFrom) (huntil : t.pausedUntil = s.pausedUntil) (hbefore : t.pausedBefore = s.pausedBefore)
    (hnonces : t.nonces = s.nonces) (hsigned : t.signed = s.signed) : Governs now s t := by
  refine ⟨hidle, hterms, fun h => ⟨⟨?_, ?_, ?_⟩, ?_⟩, hnonces, hsigned⟩
  · rw [hfrom, huntil]; exact h.ends
  · rw [hfrom, hbefore]; exact h.before
  · rw [hfrom]; exact h.began
  · unfold Storage.clock
    rw [hfrom, huntil, hbefore]

theorem validate_sound {cfg : Config} {t : Terms} {id : Param} {v : Nat} {u : Unit} (h : validate cfg t id v = .ok u)
    (ht : t.Sound) : (t.set v id).Sound := by
  cases id with
  | liqRatioBps =>
    simp only [validate, refuse_eq_ok, not_or, not_lt] at h
    exact ⟨h.1, ht.fee⟩
  | _ => exact ⟨ht.ratio, ht.fee⟩

section
variable {cfg : Config} {e : Env} {s : Storage}

theorem Runs.onlyOwner {α : Type} {k : Unit → Prog Storage VaultError α} {Q : α → Storage → Prop} (h : Runs (k ()) s Q) :
    Runs (TacVault.onlyOwner e >>= k) s Q :=
  .bind (.get (wp_check.2 ⟨fun _ => by simp [Fair], fun _ => h⟩))

theorem runs_ownerSets {bad : Prop} [Decidable bad] {f : Storage → Storage} (h : ¬ bad → Governs e.now s (f s)) :
    Runs (ownerSets e bad f) s fun _ t => Governs e.now s t :=
  .onlyOwner (.check (by simp [Fair]) fun hb => h hb)

theorem idle_rfl : Idle s s := ⟨rfl, rfl, rfl, rfl, le_refl _⟩

/-- The pause: the clock stands still from its start. -/
theorem runs_pauseAuctions {duration : Nat} (hpaced : s.Paced e.now) : Runs (pauseAuctions e duration) s fun _ t =>
    Governs e.now s t := by
  refine .get (.check (by simp [Fair]) fun _ => .check (by simp [Fair]) fun _ => .except fair_add fun till htill => ?_)
  obtain ⟨-, rfl⟩ := add_eq_ok.1 htill
  obtain ⟨hends, hbefore, hbegan⟩ := hpaced
  by_cases h : e.now < s.pausedUntil
  · rw [if_pos h]
    generalize maxPause = longest
    refine .except fair_add fun most _ => .check (by simp [Fair]) fun hlonger => ?_
    refine ⟨⟨rfl, rfl, rfl, rfl, le_refl _⟩, id, fun _ => ⟨⟨?_, hbefore, hbegan⟩, ?_⟩, rfl, rfl⟩
    · show s.pausedFrom ≤ e.now + duration
      omega
    · simp only [Storage.clock]
      omega
  · rw [if_neg h]
    refine .except fair_mul fun twice htwice => ?_
    obtain ⟨-, rfl⟩ := mul_eq_ok.1 htwice
    refine .except (fair_sub (by omega)) fun _ _ => .check (by simp [Fair]) fun _ => ?_
    refine .except (fair_sub hends) fun ran hran => .except fair_add fun before hbefore' => ?_
    obtain ⟨-, rfl⟩ := sub_eq_ok.1 hran
    obtain ⟨-, rfl⟩ := add_eq_ok.1 hbefore'
    refine ⟨⟨rfl, rfl, rfl, rfl, le_refl _⟩, id, fun _ => ⟨⟨?_, ?_, le_refl _⟩, ?_⟩, rfl, rfl⟩
    · exact Nat.le_add_right _ _
    · show s.pausedBefore + (s.pausedUntil - s.pausedFrom) ≤ e.now
      omega
    · simp only [Storage.clock]
      omega

theorem runs_resumeAuctions (hpaced : s.Paced e.now) : Runs (resumeAuctions e) s fun _ t => Governs e.now s t := by
  refine .onlyOwner (.get (.check (by simp [Fair]) fun h => ?_))
  obtain ⟨hends, hbefore, hbegan⟩ := hpaced
  refine ⟨⟨rfl, rfl, rfl, rfl, le_refl _⟩, id, fun _ => ⟨⟨hbegan, hbefore, hbegan⟩, ?_⟩, rfl, rfl⟩
  simp only [Storage.clock]
  omega

/-- Governance that touches neither the clock nor the ratio and the redemption fee. -/
theorem governs_idle {now : Nat} {t : Storage} (hidle : Idle s t) (hterms : t.terms = s.terms)
    (hfrom : t.pausedFrom = s.pausedFrom) (huntil : t.pausedUntil = s.pausedUntil) (hbefore : t.pausedBefore = s.pausedBefore)
    (hnonces : t.nonces = s.nonces) (hsigned : t.signed = s.signed) : Governs now s t :=
  governs_of hidle (fun h => hterms ▸ h) hfrom huntil hbefore hnonces hsigned

theorem runs_setRedemptionFee {bps : Nat} : Runs (setRedemptionFee e bps) s fun _ t => Governs e.now s t := by
  refine runs_ownerSets fun hb => governs_of ⟨rfl, rfl, rfl, rfl, le_refl _⟩ (fun h => ⟨h.ratio, ?_⟩) rfl rfl rfl rfl rfl
  exact not_lt.1 hb

theorem runs_queueParam {id : Param} {v : Nat} : Runs (queueParam cfg e id v) s fun _ t => Governs e.now s t := by
  refine .onlyOwner (.get (.check (by simp [Fair]) fun _ => .check (by simp [Fair]) fun _ => .except fair_validate fun _ _ => ?_))
  generalize paramDelay = delay
  exact .except fair_add fun _ _ => governs_idle ⟨rfl, rfl, rfl, rfl, le_refl _⟩ rfl rfl rfl rfl rfl rfl

theorem runs_executeParam {id : Param} : Runs (executeParam cfg e id) s fun _ t => Governs e.now s t := by
  refine .onlyOwner (.get (.check (by simp [Fair]) fun _ => .check (by simp [Fair]) fun _ => .check (by simp [Fair]) fun _ => ?_))
  refine .check (by simp [Fair]) fun _ => .except fair_validate fun _ hvalid => ?_
  exact governs_of ⟨rfl, rfl, rfl, rfl, le_refl _⟩ (validate_sound hvalid) rfl rfl rfl rfl rfl

theorem runs_queueOracle {oracle : Address} : Runs (queueOracle e oracle) s fun _ t => Governs e.now s t := by
  refine .onlyOwner (.get (.check (by simp [Fair]) fun _ => .check (by simp [Fair]) fun _ => .except fair_checkWindows fun _ _ => ?_))
  generalize oracleDelay = delay
  exact .except fair_add fun _ _ => governs_idle ⟨rfl, rfl, rfl, rfl, le_refl _⟩ rfl rfl rfl rfl rfl rfl

theorem runs_executeOracle : Runs (executeOracle e) s fun _ t => Governs e.now s t := by
  unfold executeOracle
  generalize queueExpiry = expiry
  refine .onlyOwner (.get (.check (by simp [Fair]) fun _ => .check (by simp [Fair]) fun _ => .check (by simp [Fair]) fun _ => ?_))
  refine .except fair_add fun _ _ => .check (by simp [Fair]) fun _ => .except fair_answers fun _ _ => ?_
  refine .except fair_continuous fun _ _ => .check (by simp [Fair]) fun _ => ?_
  exact governs_idle ⟨rfl, rfl, rfl, rfl, le_refl _⟩ rfl rfl rfl rfl rfl rfl

/-- The owner's calls, and those that only add to what the vault holds. -/
def Call.governs : Call → Prop
  | .deposit _ | .depositFor .. | .withdraw _ | .withdrawFor .. | .borrow .. | .borrowFor .. | .repay .. | .useNonce
  | .liquidate _ | .cancel _ | .bid .. | .absorb _ | .redeem .. => False
  | _ => True

theorem runs_governs {c : Call} (hc : c.governs) (hpaced : s.Paced e.now) : Runs (c.prog cfg e) s fun _ t =>
    Governs e.now s t := by
  have hidle {t : Storage} (h : Idle s t) (h₁ : t.terms = s.terms) (h₂ : t.pausedFrom = s.pausedFrom)
      (h₃ : t.pausedUntil = s.pausedUntil) (h₄ : t.pausedBefore = s.pausedBefore) (h₅ : t.nonces = s.nonces)
      (h₆ : t.signed = s.signed) : Governs e.now s t := governs_idle h h₁ h₂ h₃ h₄ h₅ h₆
  cases c with
  | sendTac amount => exact hidle ⟨rfl, rfl, rfl, rfl, Nat.le_add_right _ _⟩ rfl rfl rfl rfl rfl rfl
  | moveSynth synth => exact hidle ⟨rfl, rfl, rfl, rfl, le_refl _⟩ rfl rfl rfl rfl rfl rfl
  | setRedemptionFee bps => exact runs_setRedemptionFee
  | pauseAuctions duration => exact runs_pauseAuctions hpaced
  | resumeAuctions => exact runs_resumeAuctions hpaced
  | queueParam id v => exact runs_queueParam
  | executeParam id => exact runs_executeParam
  | queueOracle oracle => exact runs_queueOracle
  | executeOracle => exact runs_executeOracle
  | setDebtCeiling ceiling | setBorrowFee bps | setFeeTo to' | setTacSink to' | setPauser to' | transferOwnership to' =>
    exact runs_ownerSets fun _ => hidle ⟨rfl, rfl, rfl, rfl, le_refl _⟩ rfl rfl rfl rfl rfl rfl
  | renounceOwnership =>
    exact .onlyOwner (.check (by simp [Fair]) fun _ => hidle ⟨rfl, rfl, rfl, rfl, le_refl _⟩ rfl rfl rfl rfl rfl rfl)
  | lowerDepthBps bps =>
    exact .onlyOwner (.get (.check (by simp [Fair]) fun _ => .check (by simp [Fair]) fun _ =>
      governs_of ⟨rfl, rfl, rfl, rfl, le_refl _⟩ (fun h => ⟨h.ratio, h.fee⟩) rfl rfl rfl rfl rfl))
  | cancelParam id | cancelOracle =>
    exact .onlyOwner (.get (.check (by simp [Fair]) fun _ => hidle ⟨rfl, rfl, rfl, rfl, le_refl _⟩ rfl rfl rfl rfl rfl rfl))
  | lockParams | lockOracle => exact .onlyOwner (hidle ⟨rfl, rfl, rfl, rfl, le_refl _⟩ rfl rfl rfl rfl rfl rfl)
  | _ => exact hc.elim

end

/-! ## The invariant -/

structure Inv (now : Nat) (s : Storage) : Prop where
  debts : Tally (fun o => (s.vaults o).debt) s.totalDebt
  supply : s.minted = s.totalDebt + s.burned
  held : ∃ n, Tally (fun o => (s.vaults o).collateral) n ∧ n ≤ s.tac
  sound : s.terms.Sound
  paced : s.Paced now
  started : ∀ o, (s.vaults o).auctionStart ≤ s.clock now
  spent : ∀ sig ∈ s.signed, sig.nonce < s.nonces sig.owner
  once : (s.signed.map fun sig => (sig.owner, sig.nonce)).Nodup

section
variable {now now' : Nat} {s t : Storage} {owner : Address}

theorem Inv.later (h : Inv now s) (hle : now ≤ now') : Inv now' s :=
  { h with paced := h.paced.later hle, started := fun o => (h.started o).trans (h.paced.clock_le hle) }

theorem Inv.known (h : Inv now s) : Known s now owner where
  owed := h.debts.le owner
  paced := h.paced
  started := h.started owner
  ratio := (show BPS ≤ minLiqRatioBps by decide).trans h.sound.ratio
  fee := h.sound.fee

theorem Inv.governs (h : Inv now s) (hg : Governs now s t) : Inv now t := by
  obtain ⟨hpaced, hclock⟩ := hg.clock h.paced
  obtain ⟨n, hn, hle⟩ := h.held
  have hv := hg.idle.vaults
  refine ⟨?_, ?_, ⟨n, ?_, hle.trans hg.idle.tac⟩, hg.terms h.sound, hpaced, fun o => ?_, ?_, ?_⟩
  · rw [hv, hg.idle.totalDebt]; exact h.debts
  · rw [hg.idle.minted, hg.idle.totalDebt, hg.idle.burned]; exact h.supply
  · rw [hv]; exact hn
  · rw [hv, hclock]; exact h.started o
  · rw [hg.signed, hg.nonces]; exact h.spent
  · rw [hg.signed]; exact h.once

theorem Moved.debts {v : Vault} (hm : Moved owner v s t) :
    (fun o => (t.vaults o).debt) = Function.update (fun o => (s.vaults o).debt) owner v.debt := by
  funext o
  rw [hm.vaults]
  by_cases ho : o = owner
  · subst ho; simp
  · simp [ho]

theorem Moved.collaterals {v : Vault} (hm : Moved owner v s t) :
    (fun o => (t.vaults o).collateral) = Function.update (fun o => (s.vaults o).collateral) owner v.collateral := by
  funext o
  rw [hm.vaults]
  by_cases ho : o = owner
  · subst ho; simp
  · simp [ho]

/-- A call on one vault keeps the invariant. -/
theorem Inv.moved (h : Inv now s) {v : Vault} (hm : Moved owner v s t) (hcalm : Calm s t)
    (hstart : v.auctionStart ≤ s.clock now) : Inv now t := by
  obtain ⟨n, hn, hle⟩ := h.held
  have hclock : t.clock now = s.clock now := by
    unfold Storage.clock
    rw [hcalm.pausedFrom, hcalm.pausedUntil, hcalm.pausedBefore]
  have hheld : (s.vaults owner).collateral ≤ n := hn.le owner
  refine ⟨?_, ?_, ⟨n - (s.vaults owner).collateral + v.collateral, ?_, ?_⟩, ?_, ⟨?_, ?_, ?_⟩, fun o => ?_, ?_, ?_⟩
  · rw [hm.debts]
    exact h.debts.update hm.debt
  · have := hm.supply
    have := h.supply
    omega
  · rw [hm.collaterals]
    exact hn.update (by omega)
  · have := hm.tac
    omega
  · rw [hcalm.terms]; exact h.sound
  · rw [hcalm.pausedFrom, hcalm.pausedUntil]; exact h.paced.ends
  · rw [hcalm.pausedBefore, hcalm.pausedFrom]; exact h.paced.before
  · rw [hcalm.pausedFrom]; exact h.paced.began
  · rw [hclock, hm.vaults]
    by_cases ho : o = owner
    · subst ho
      rw [Function.update_self]
      exact hstart
    · rw [Function.update_of_ne ho]
      exact h.started o
  · rw [hcalm.signed, hcalm.nonces]; exact h.spent
  · rw [hcalm.signed]; exact h.once

theorem Inv.touches (h : Inv now s) {P : Vault → Prop} (ht : Touches P owner s t) : Inv now t := by
  obtain ⟨hcalm, v, hstart, hm, -⟩ := ht
  exact h.moved hm hcalm (hstart.trans (h.started owner))

/-- A nonce is used once. -/
theorem Inv.useNonce (h : Inv now s) : Inv now { s with nonces := Function.update s.nonces owner (s.nonces owner + 1) } :=
  { h with
    paced := ⟨h.paced.ends, h.paced.before, h.paced.began⟩
    spent := fun sig hsig => by
      have := h.spent sig hsig
      show sig.nonce < Function.update s.nonces owner (s.nonces owner + 1) sig.owner
      by_cases ho : sig.owner = owner
      · rw [← ho, Function.update_self]
        omega
      · rw [Function.update_of_ne ho]
        exact this }

theorem Inv.signs (h : Inv now s) {cfg : Config} {e : Env} {sig : Signature} (hs : Signs cfg e sig s t) : Inv now t := by
  obtain ⟨hnonce, -, rfl⟩ := hs
  refine { h with paced := ⟨h.paced.ends, h.paced.before, h.paced.began⟩, spent := fun sig' hsig' => ?_, once := ?_ }
  · simp only
    rcases List.mem_append.1 hsig' with hold | hnew
    · have := h.spent sig' hold
      by_cases ho : sig'.owner = sig.owner
      · rw [ho, Function.update_self]
        rw [ho] at this
        omega
      · rw [Function.update_of_ne ho]
        exact this
    · rw [List.mem_singleton.1 hnew, Function.update_self]
      omega
  · rw [List.map_append]
    refine List.Nodup.append h.once (List.nodup_singleton _) ?_
    intro p hp hp'
    obtain ⟨sig', hsig', rfl⟩ := List.mem_map.1 hp
    have := h.spent sig' hsig'
    simp only [List.map_cons, List.map_nil, List.mem_singleton, Prod.mk.injEq] at hp'
    rw [hp'.1, hp'.2, hnonce] at this
    omega

theorem Touches.others {P : Vault → Prop} (ht : Touches P owner s t) {o : Address} (ho : o ≠ owner) :
    (s.vaults o).Better (t.vaults o) := by
  obtain ⟨-, v, -, hm, -⟩ := ht
  rw [hm.vaults, Function.update_of_ne ho]
  exact Vault.Better.refl _

theorem Touches.better (ht : Touches (s.vaults owner).Better owner s t) (o : Address) :
    (s.vaults o).Better (t.vaults o) := by
  by_cases ho : o = owner
  · obtain ⟨-, v, -, hm, hv⟩ := ht
    subst ho
    rwa [hm.vaults, Function.update_self]
  · exact ht.others ho

end

/-! ## The vault -/

/-- The call is a borrow or a withdrawal of `o`'s, by `o` or on a signature of `o`'s over the call with `o`'s next nonce. -/
def Call.Authorised (cfg : Config) (e : Env) (s t : Storage) (o : Address) : Call → Prop
  | .withdraw _ => e.sender = o
  | .borrow _ _ => e.sender = o
  | .withdrawFor owner amount to' deadline sig => owner = o ∧ ∃ u, Signs cfg e ⟨o, s.nonces o,
      digest cfg (withdrawTypehash cfg) [o, amount, to', s.nonces o, deadline], sig⟩ s u ∧ t.signed = u.signed
  | .borrowFor owner amount maxFeeBps minCollateral to' deadline sig => owner = o ∧ ∃ u, Signs cfg e ⟨o, s.nonces o,
      digest cfg (borrowTypehash cfg) [o, amount, maxFeeBps, minCollateral, to', s.nonces o, deadline], sig⟩ s u ∧
        t.signed = u.signed
  | _ => False

/-- **One call**: it does not underflow, keeps the books, and leaves every vault whose owner did not authorise it no worse
off. -/
theorem runs_call {cfg : Config} {e : Env} {c : Call} {s : Storage} (h : Inv e.now s) : Runs (c.prog cfg e) s fun _ t =>
    Inv e.now t ∧ ∀ o, c.Authorised cfg e s t o ∨ (s.vaults o).Better (t.vaults o) := by
  -- a call that takes no more than a share
  have hshare {owner : Address} {m : Prog Storage VaultError Unit}
      (hm : Runs m s fun _ t => Touches (s.vaults owner).Better owner s t) : Runs m s fun _ t =>
      Inv e.now t ∧ ∀ o, c.Authorised cfg e s t o ∨ (s.vaults o).Better (t.vaults o) :=
    hm.mono fun _ t ht => ⟨h.touches ht, fun o => Or.inr (ht.better o)⟩
  by_cases hc : c.governs
  · refine (runs_governs hc h.paced).mono fun _ t hg => ⟨h.governs hg, fun o => Or.inr ?_⟩
    rw [hg.idle.vaults]
    exact Vault.Better.refl _
  cases c with
  | deposit amount => exact hshare runs_depositFor
  | depositFor owner amount => exact hshare runs_depositFor
  | repay owner amount => exact hshare (runs_repay h.known)
  | cancel owner => exact hshare runs_cancel
  | bid owner amount minTac => exact hshare (runs_bid h.known)
  | absorb owner => exact hshare (runs_absorb h.known)
  | redeem owner amount minTac => exact hshare (runs_redeem h.known)
  | withdraw amount =>
    refine runs_withdrawTo.mono fun _ t ht => ⟨h.touches ht, fun o => ?_⟩
    by_cases ho : o = e.sender
    · exact Or.inl ho.symm
    · exact Or.inr (ht.others ho)
  | borrow amount maxFeeBps =>
    refine runs_borrowTo.mono fun _ t ht => ⟨h.touches ht, fun o => ?_⟩
    by_cases ho : o = e.sender
    · exact Or.inl ho.symm
    · exact Or.inr (ht.others ho)
  | withdrawFor owner amount to' deadline sig =>
    refine runs_withdrawFor.mono fun _ t ⟨nonce, u, hsign, ht⟩ => ⟨(h.signs hsign).touches ht, fun o => ?_⟩
    obtain rfl : nonce = s.nonces owner := hsign.1
    by_cases ho : o = owner
    · exact Or.inl ⟨ho.symm, u, ho ▸ hsign, ht.1.signed⟩
    · have := ht.others ho
      rw [hsign.2.2] at this
      exact Or.inr this
  | borrowFor owner amount maxFeeBps minCollateral to' deadline sig =>
    refine runs_borrowFor.mono fun _ t ⟨nonce, u, hsign, ht⟩ => ⟨(h.signs hsign).touches ht, fun o => ?_⟩
    obtain rfl : nonce = s.nonces owner := hsign.1
    by_cases ho : o = owner
    · exact Or.inl ⟨ho.symm, u, ho ▸ hsign, ht.1.signed⟩
    · have := ht.others ho
      rw [hsign.2.2] at this
      exact Or.inr this
  | useNonce =>
    refine .bind (runs_useNonceOf.mono fun nonce t ⟨hnonce, ht⟩ => ?_)
    subst hnonce
    subst ht
    exact ⟨h.useNonce, fun o => Or.inr (Vault.Better.refl _)⟩
  | liquidate owner =>
    refine (runs_liquidate h.known).mono fun _ t ht => ?_
    subst ht
    have hm : Moved owner { s.vaults owner with auctionStart := s.clock e.now } s
        (s.setVault owner { s.vaults owner with auctionStart := s.clock e.now }) := ⟨rfl, rfl, rfl, le_refl _⟩
    refine ⟨h.moved hm ⟨rfl, rfl, rfl, rfl, rfl, rfl⟩ (le_refl _), fun o => Or.inr ?_⟩
    by_cases ho : o = owner
    · subst ho
      rw [setVault_vaults, Function.update_self]
      exact ⟨le_refl _, le_refl _⟩
    · rw [setVault_vaults, Function.update_of_ne ho]
      exact Vault.Better.refl _
  | _ => exact absurd trivial hc

/-- What the constructor leaves. -/
theorem construct_inv {cfg : Config} {e : Env} {c : Setup} {tac : Nat} {synth : Address → Nat} {s : Storage}
    (h : construct cfg e c tac synth = .ok s) : Inv 0 s := by
  simp only [construct, except_bind_eq_ok, refuse_eq_ok, except_pure_eq_ok, validate, not_or, not_lt] at h
  obtain ⟨_, -, _, -, _, -, _, hfees, _, -, _, -, _, -, _, -, _, hliq, _, -, _, -, _, -, rfl⟩ := h
  refine ⟨Tally.zero, rfl, ⟨0, Tally.zero, Nat.zero_le _⟩, ⟨hliq.1, hfees.1⟩, ⟨le_refl _, le_refl _, le_refl _⟩,
    fun _ => Nat.zero_le _, fun _ hsig => ?_, List.nodup_nil⟩
  cases hsig

/-- Calls at times that do not go back keep the invariant. -/
theorem run_inv {cfg : Config} : ∀ {calls : List (Env × Call)} {now : Nat} {s : Storage}, Inv now s →
    (∀ c ∈ calls, now ≤ c.1.now) → calls.Pairwise (fun c d => c.1.now ≤ d.1.now) →
    ∀ {e : Env}, (∀ c ∈ calls, c.1.now ≤ e.now) → now ≤ e.now → Inv e.now (run cfg calls s)
  | [], _, _, h, _, _, _, _, hle => h.later hle
  | c :: calls, now, s, h, hnow, htimes, e, hlast, _ => by
    obtain ⟨hfirst, hrest⟩ := List.pairwise_cons.1 htimes
    have hs := h.later (hnow c (by simp))
    have hcall : Inv c.1.now ((c.2.prog cfg c.1).call s) :=
      call_keeps hs fun _ t hok => (wp_of_ok (runs_call hs) hok).1
    exact run_inv hcall hfirst hrest (fun d hd => hlast d (by simp [hd])) (hlast c (by simp))

/-- **The vault's ledger**, after any calls by anyone at any answers of the oracles: the total debt is the sum of the vaults'
and what the vault minted less what it burned, the TAC held covers the collateral, a signature's nonce is used once; and
a further call does not end by an underflow, and if it is accepted every vault is no worse off but one whose owner
borrowed or withdrew by it. -/
theorem vault_ledger {cfg : Config} {e₀ : Env} {c₀ : Setup} {tac : Nat} {synth : Address → Nat} {s₀ : Storage}
    (h : construct cfg e₀ c₀ tac synth = .ok s₀) {calls : List (Env × Call)} {e : Env} {c : Call}
    (htimes : (calls ++ [(e, c)]).Pairwise fun c d => c.1.now ≤ d.1.now) :
    let s := run cfg calls s₀
    Tally (fun o => (s.vaults o).debt) s.totalDebt ∧ s.minted = s.totalDebt + s.burned ∧
      (∃ n, Tally (fun o => (s.vaults o).collateral) n ∧ n ≤ s.tac) ∧
      (s.signed.map fun sig => (sig.owner, sig.nonce)).Nodup ∧
      (∀ t, c.prog cfg e s ≠ .err .underflow t) ∧
      ∀ t, c.prog cfg e s = .ok () t → ∀ o, c.Authorised cfg e s t o ∨ (s.vaults o).Better (t.vaults o) := by
  intro s
  obtain ⟨hcalls, -, hlast⟩ := List.pairwise_append.1 htimes
  have hs : Inv e.now s := run_inv (construct_inv h) (fun _ _ => Nat.zero_le _) hcalls
    (fun d hd => hlast d hd (e, c) (by simp)) (Nat.zero_le _)
  refine ⟨hs.debts, hs.supply, hs.held, hs.once, fun t herr => ?_, fun t hok => (wp_of_ok (runs_call hs) hok).2⟩
  exact wp_of_err (runs_call hs) herr rfl

/-- An oracle that prices a TAC at one ETH. -/
def demoOracle : Oracle where
  hasCode := true
  shortWindow := some 3600
  window := some 7200
  maxWindow := some 86400
  prices _ := some (WAD, WAD)
  recovery _ := some WAD
  depthMin _ := some WAD
  latest := some WAD
  spot := some WAD

def demoVaultEnv : Env where
  sender := 7
  now := 1
  oracle _ := demoOracle
  feed := some ⟨1, 1, 1, 1⟩
  erc1271 _ _ _ := false
  pays := true
  spends := true
  minters := 0

def demoVaultConfig : Config := ⟨codeKeccak, 0, fun _ _ => 0, 9, 0, 3600, 100⟩

def demoSetup : Setup := ⟨true, true, 18, 1, 2, 3, 4, ⟨15000, 13000, 1000, 3600, 600, 100, 50, 20⟩, WAD, 0⟩

/-- A deployed vault's first deposit. -/
theorem vault_ledger_deposit : ∃ s₀, construct demoVaultConfig demoVaultEnv demoSetup 0 (fun _ => 0) = .ok s₀ ∧
    ∀ t, (Call.deposit 5).prog demoVaultConfig demoVaultEnv s₀ ≠ .err .underflow t := by
  obtain ⟨s₀, hs₀⟩ : ∃ s₀, construct demoVaultConfig demoVaultEnv demoSetup 0 (fun _ => 0) = .ok s₀ := ⟨_, rfl⟩
  let calls : List (Env × Call) := []
  have htimes : (calls ++ [(demoVaultEnv, Call.deposit 5)]).Pairwise fun c d => c.1.now ≤ d.1.now :=
    List.pairwise_singleton _ _
  exact ⟨s₀, hs₀, (vault_ledger hs₀ htimes).2.2.2.2.1⟩

end TacVault

end Tacit
