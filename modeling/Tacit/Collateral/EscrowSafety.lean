import Tacit.Collateral.FeeBudget
import Tacit.Collateral.Escrow
import Tacit.Lib.Tally
/-!
# Escrowed wstETH is neither lost nor paid twice

The trail of a run records what each funder posted and claimed of each lock, what went to the reserve and what the
reserve paid. A share that survives a slash is a dead entry: with the claims it still adds up to what was posted, and
the reserve took exactly the dead entries (`Kept`). The one leak of the books is a draw that the owner sends to the
engine itself, which leaves the reserve but not the balance.
-/
namespace Tacit

open Prog

namespace CollateralEngine

/-! ## What an accepted call does -/

section

variable {self : Address} {F : Flags} {env : Env} {s t : EscrowStorage} {u : Unit} {outpoint : Word} {amount : Nat} {paid : Bool}

/-- A lock's entry for one funder. -/
def EscrowStorage.withShare (s : EscrowStorage) (outpoint : Word) (funder : Address) (share total wstEth : Nat) : EscrowStorage :=
  { s with
    escrowOf := Function.update s.escrowOf outpoint (Function.update (s.escrowOf outpoint) funder share)
    escrowTotal := Function.update s.escrowTotal outpoint total
    wstEth := wstEth }

def EscrowStorage.swept (s : EscrowStorage) (outpoint : Word) : EscrowStorage :=
  { s with
    escrowTotal := Function.update s.escrowTotal outpoint 0
    escrowSlashed := Function.update s.escrowSlashed outpoint true
    insuranceReserve := s.insuranceReserve + s.escrowTotal outpoint }

theorem postEscrow_ok (h : postEscrow F env outpoint amount paid s = .ok u t) : s.escrowSlashed outpoint = false ∧
    t = s.withShare outpoint env.sender (s.escrowOf outpoint env.sender + amount) (s.escrowTotal outpoint + amount)
      (s.wstEth + amount) := by
  simp only [postEscrow, pull, add, bind_eq_ok, check_eq_ok, get_eq_ok, modify_eq_ok, orThrow_eq_ok, uint256_eq_some] at h
  obtain ⟨_, _, ⟨_, rfl⟩, _, _, ⟨rfl, rfl⟩, _, _, ⟨hslashed, rfl⟩, _, _, ⟨_, rfl⟩, _, _, ⟨⟨_, rfl⟩, rfl⟩, _, _, ⟨⟨_, rfl⟩, rfl⟩, _, _,
    rfl, _, _, ⟨_, rfl⟩, rfl⟩ := h
  exact ⟨Bool.eq_false_iff.2 hslashed, rfl⟩

theorem claimEscrow_ok (hself : env.sender ≠ self) (h : claimEscrow self F env outpoint paid s = .ok u t) :
    s.escrowSlashed outpoint = false ∧ (F.minted outpoint = true → F.redeemed outpoint = true) ∧
    s.escrowOf outpoint env.sender ≤ s.escrowTotal outpoint ∧ s.escrowOf outpoint env.sender ≤ s.wstEth ∧
    t = s.withShare outpoint env.sender 0 (s.escrowTotal outpoint - s.escrowOf outpoint env.sender)
      (s.wstEth - s.escrowOf outpoint env.sender) := by
  simp only [claimEscrow, push, sub, bind_eq_ok, check_eq_ok, get_eq_ok, modify_eq_ok, orThrow_eq_ok, uintSub_eq_some, if_neg hself] at h
  obtain ⟨_, _, ⟨_, rfl⟩, _, _, ⟨rfl, rfl⟩, _, _, ⟨_, rfl⟩, _, _, ⟨hslashed, rfl⟩, _, _, ⟨hlive, rfl⟩, _, _, ⟨_, rfl⟩, _, _,
    ⟨⟨hle, rfl⟩, rfl⟩, _, _, rfl, _, _, ⟨rfl, rfl⟩, _, _, ⟨hpaid, rfl⟩, rfl⟩ := h
  rw [not_or, Nat.not_lt] at hpaid
  refine ⟨Bool.eq_false_iff.2 hslashed, fun hm => ?_, hle, hpaid.2, rfl⟩
  rw [not_and, Bool.not_eq_false] at hlive
  exact hlive hm

theorem slashToReserve_ok (h : slashToReserve outpoint s = .ok u t) : t = s.swept outpoint := by
  simp only [slashToReserve, add, bind_eq_ok, check_eq_ok, get_eq_ok, modify_eq_ok, orThrow_eq_ok, uint256_eq_some] at h
  obtain ⟨_, _, ⟨rfl, rfl⟩, _, _, ⟨_, rfl⟩, _, _, ⟨⟨_, rfl⟩, rfl⟩, rfl⟩ := h
  rfl

theorem slash_ok (h : slash F outpoint s = .ok u t) : s.escrowSlashed outpoint = false ∧ F.minted outpoint = true ∧
    F.spent outpoint = true ∧ t = s.swept outpoint := by
  simp only [slash, bind_eq_ok, check_eq_ok, get_eq_ok] at h
  obtain ⟨_, _, ⟨_, rfl⟩, _, _, ⟨rfl, rfl⟩, _, _, ⟨_, rfl⟩, _, _, ⟨hslashed, rfl⟩, _, _, ⟨hrug, rfl⟩, h⟩ := h
  rw [not_or, Bool.not_eq_false, Bool.not_eq_false] at hrug
  exact ⟨Bool.eq_false_iff.2 hslashed, hrug.1, hrug.2, slashToReserve_ok h⟩

theorem reads_wstEthForBtc {vBtc : Nat} : Reads (wstEthForBtc env vBtc) :=
  .bind .get fun _ => .bind reads_price fun _ => .bind .pow10 fun _ => .bind .mul fun _ => .bind .mul fun _ =>
    .bind .mul fun _ => .pure

theorem checkEscrowHealth_ok {b : Bool} (h : checkEscrowHealth F env outpoint s = .ok b t) : t = s := by
  simp only [checkEscrowHealth, mul, bind_eq_ok, get_eq_ok, ite_eq_ok, pure_eq_ok, check_eq_ok, zoom_eq_ok, orThrow_eq_ok] at h
  obtain ⟨_, _, ⟨rfl, rfl⟩, ⟨_, _, rfl⟩ | ⟨_, _, _, ⟨_, rfl⟩, w, _, ⟨p, hp, rfl⟩, _, _, ⟨_, rfl⟩, _, rfl⟩⟩ := h
  · rfl
  · obtain rfl := wp_of_ok (reads_wstEthForBtc _) hp
    rfl

theorem requireUnhealthy_ok (h : requireUnhealthy F env outpoint s = .ok u t) : t = s ∧ s.escrowSlashed outpoint = false ∧
    F.redeemed outpoint = false := by
  simp only [requireUnhealthy, requireEscrowNotice, add, bind_eq_ok, check_eq_ok, get_eq_ok, orThrow_eq_ok] at h
  obtain ⟨_, _, ⟨rfl, rfl⟩, _, _, ⟨_, rfl⟩, _, _, ⟨_, rfl⟩, _, _, ⟨_, _, ⟨rfl, rfl⟩, _, _, ⟨_, rfl⟩, _, _, ⟨_, rfl⟩, _, _, ⟨_, rfl⟩, _, rfl⟩,
    _, _, ⟨hlive, rfl⟩, _, _, hhealth, _, rfl⟩ := h
  obtain rfl := checkEscrowHealth_ok hhealth
  simp only [not_or, Bool.not_eq_true] at hlive
  exact ⟨rfl, hlive.1, hlive.2.2.1⟩

theorem onlyEnforcementModule_ok (h : onlyEnforcementModule env s = .ok u t) : t = s := by
  simp only [onlyEnforcementModule, bind_eq_ok, check_eq_ok, get_eq_ok] at h
  obtain ⟨_, _, ⟨rfl, rfl⟩, _, rfl⟩ := h
  rfl

/-- Only the flag's clock moves. -/
def Reflagged (s t : EscrowStorage) : Prop := ∃ since, t = { s with escrowUnhealthySince := since }

theorem flagEscrowUnhealthy_ok (h : flagEscrowUnhealthy F env outpoint s = .ok u t) :
    F.redeemed outpoint = false ∧ Reflagged s t := by
  simp only [flagEscrowUnhealthy, bind_eq_ok, modify_eq_ok] at h
  obtain ⟨_, _, hmodule, _, _, hrequire, rfl⟩ := h
  obtain rfl := onlyEnforcementModule_ok hmodule
  obtain ⟨rfl, -, hredeemed⟩ := requireUnhealthy_ok hrequire
  exact ⟨hredeemed, _, rfl⟩

theorem clearEscrowFlag_ok (h : clearEscrowFlag env outpoint s = .ok u t) : Reflagged s t := by
  simp only [clearEscrowFlag, bind_eq_ok, modify_eq_ok] at h
  obtain ⟨_, _, hmodule, rfl⟩ := h
  obtain rfl := onlyEnforcementModule_ok hmodule
  exact ⟨_, rfl⟩

theorem clearEscrowFlagIfHealthy_ok (h : clearEscrowFlagIfHealthy F env outpoint s = .ok u t) : Reflagged s t := by
  simp only [clearEscrowFlagIfHealthy, bind_eq_ok, get_eq_ok, ite_eq_ok, pure_eq_ok, check_eq_ok, modify_eq_ok] at h
  obtain ⟨_, _, ⟨rfl, rfl⟩, ⟨_, _, rfl⟩ | ⟨_, _, _, hhealth, _, _, ⟨_, rfl⟩, rfl⟩⟩ := h
  · exact ⟨_, rfl⟩
  · obtain rfl := checkEscrowHealth_ok hhealth
    exact ⟨_, rfl⟩

theorem enforceEscrowToReserve_ok (h : enforceEscrowToReserve F env outpoint s = .ok u t) :
    s.escrowSlashed outpoint = false ∧ F.redeemed outpoint = false ∧ t = s.swept outpoint := by
  simp only [enforceEscrowToReserve, add, bind_eq_ok, get_eq_ok, check_eq_ok, orThrow_eq_ok] at h
  obtain ⟨_, _, hmodule, _, _, hrequire, _, _, ⟨rfl, rfl⟩, _, _, ⟨_, rfl⟩, _, _, ⟨_, rfl⟩, _, _, ⟨_, rfl⟩, _, _, ⟨_, rfl⟩, _, _, ⟨_, rfl⟩, h⟩ := h
  obtain rfl := onlyEnforcementModule_ok hmodule
  obtain ⟨rfl, hslashed, hredeemed⟩ := requireUnhealthy_ok hrequire
  exact ⟨hslashed, hredeemed, slashToReserve_ok h⟩

theorem fundInsurance_ok (h : fundInsurance amount paid s = .ok u t) :
    t = { s with insuranceReserve := s.insuranceReserve + amount, wstEth := s.wstEth + amount } := by
  simp only [fundInsurance, pull, add, bind_eq_ok, check_eq_ok, get_eq_ok, modify_eq_ok, orThrow_eq_ok, uint256_eq_some] at h
  obtain ⟨_, _, ⟨_, rfl⟩, _, _, ⟨rfl, rfl⟩, _, _, ⟨⟨_, rfl⟩, rfl⟩, _, _, rfl, _, _, ⟨_, rfl⟩, rfl⟩ := h
  rfl

theorem drawInsurance_ok {recipient : Address} (h : drawInsurance self env amount recipient paid s = .ok u t) :
    amount ≤ s.insuranceReserve ∧ amount ≤ s.wstEth ∧ t = { s with
      insuranceReserve := s.insuranceReserve - amount
      wstEth := if recipient = self then s.wstEth else s.wstEth - amount } := by
  simp only [drawInsurance, onlyOwner, push, bind_eq_ok, check_eq_ok, get_eq_ok, modify_eq_ok] at h
  obtain ⟨_, _, ⟨_, rfl⟩, _, _, ⟨_, rfl⟩, _, _, ⟨_, rfl⟩, _, _, ⟨rfl, rfl⟩, _, _, ⟨hle, rfl⟩, _, _, rfl, _, _, ⟨rfl, rfl⟩, _, _, ⟨hpaid, rfl⟩, rfl⟩ := h
  rw [not_or, Nat.not_lt] at hpaid
  exact ⟨Nat.not_lt.1 hle, hpaid.2, rfl⟩

theorem drawInsuranceFor_ok {purpose : Word} {recipient : Address}
    (h : drawInsuranceFor self env purpose amount recipient paid s = .ok u t) :
    ∃ v, drawInsurance self env amount recipient paid s = .ok v t := by
  simp only [drawInsuranceFor, onlyOwner, bind_eq_ok, check_eq_ok] at h
  obtain ⟨_, _, ⟨_, rfl⟩, _, _, ⟨_, rfl⟩, h⟩ := h
  exact ⟨u, h⟩

theorem setEscrowPool_ok {pool : Address} {binds : Bool} (h : setEscrowPool env pool binds s = .ok u t) :
    t = { s with pool := pool } := by
  simp only [setEscrowPool, onlyOwner, bind_eq_ok, check_eq_ok, get_eq_ok, modify_eq_ok] at h
  obtain ⟨_, _, ⟨_, rfl⟩, _, _, ⟨rfl, rfl⟩, _, _, ⟨_, rfl⟩, _, _, ⟨_, rfl⟩, _, _, ⟨_, rfl⟩, rfl⟩ := h
  rfl

end

/-! ## The trail of a run -/

/-- What a run moved: into and out of the engine by funder, into the reserve by lock, and out of the reserve. -/
structure Trail where
  posted : Word → Address → Nat
  claimed : Word → Address → Nat
  taken : Word → Nat
  funded : Nat
  drawn : Nat
  /-- The part of `drawn` that was sent to the engine itself. -/
  strayed : Nat

def Trail.empty : Trail := ⟨fun _ _ => 0, fun _ _ => 0, fun _ => 0, 0, 0, 0⟩

def Trail.bump (f : Word → Address → Nat) (outpoint : Word) (funder : Address) (n : Nat) : Word → Address → Nat :=
  Function.update f outpoint (Function.update (f outpoint) funder (f outpoint funder + n))

theorem Trail.bump_apply {f : Word → Address → Nat} {o o' : Word} {a a' : Address} {n : Nat} :
    Trail.bump f o a n o' a' = f o' a' + if o' = o ∧ a' = a then n else 0 := by
  rw [Trail.bump]
  by_cases ho : o' = o
  · subst ho
    rw [Function.update_self]
    by_cases ha : a' = a
    · subst ha
      simp
    · simp [ha]
  · simp [ho]

/-- The trail reads what the call did to the token's balance and to the reserve, and to whom a draw went. -/
def Trail.after (τ : Trail) (self : Address) (env : Env) (s t : EscrowStorage) : EscrowCall → Trail
  | .postEscrow outpoint _ _ => { τ with posted := bump τ.posted outpoint env.sender (t.wstEth - s.wstEth) }
  | .claimEscrow outpoint _ => { τ with claimed := bump τ.claimed outpoint env.sender (s.wstEth - t.wstEth) }
  | .slash outpoint | .enforceEscrowToReserve outpoint => { τ with
      taken := Function.update τ.taken outpoint (τ.taken outpoint + (t.insuranceReserve - s.insuranceReserve)) }
  | .fundInsurance _ _ => { τ with funded := τ.funded + (t.wstEth - s.wstEth) }
  | .drawInsurance amount recipient _ | .drawInsuranceFor _ amount recipient _ => { τ with
      drawn := τ.drawn + (s.insuranceReserve - t.insuranceReserve)
      strayed := if recipient = self then τ.strayed + amount else τ.strayed }
  | .flagEscrowUnhealthy _ | .clearEscrowFlag _ | .clearEscrowFlagIfHealthy _ | .setPool _ _ | .knob _ => τ

/-- What every run keeps. The shares of a slashed lock stay behind: they are what the reserve took. -/
structure Kept (s : EscrowStorage) (τ : Trail) : Prop where
  balance : ∃ n, Tally s.escrowTotal n ∧ s.wstEth = n + s.insuranceReserve + τ.strayed
  shares (outpoint : Word) : ∃ e, Tally (s.escrowOf outpoint) e ∧
    if s.escrowSlashed outpoint then s.escrowTotal outpoint = 0 ∧ τ.taken outpoint = e
    else s.escrowTotal outpoint = e ∧ τ.taken outpoint = 0
  flow (outpoint : Word) (funder : Address) :
    τ.posted outpoint funder = s.escrowOf outpoint funder + τ.claimed outpoint funder
  reserve : ∃ r, Tally τ.taken r ∧ s.insuranceReserve + τ.drawn = τ.funded + r

namespace Kept

variable {s : EscrowStorage} {τ : Trail} {outpoint : Word} {funder : Address} {amount : Nat}

theorem initial (pool : Address) : Kept (EscrowStorage.construct pool) .empty where
  balance := ⟨0, .zero, rfl⟩
  shares _ := ⟨0, .zero, rfl, rfl⟩
  flow _ _ := rfl
  reserve := ⟨0, .zero, rfl⟩

/-- A lock's total and one funder's share move together. -/
theorem withShare (h : Kept s τ) (hslashed : s.escrowSlashed outpoint = false) {share total wstEth : Nat}
    {τ' : Trail} (hshare : share + s.escrowTotal outpoint = s.escrowOf outpoint funder + total)
    (hbalance : wstEth + s.escrowTotal outpoint = s.wstEth + total) (htaken : τ'.taken = τ.taken)
    (hfunded : τ'.funded = τ.funded) (hdrawn : τ'.drawn = τ.drawn) (hstrayed : τ'.strayed = τ.strayed)
    (hflow : ∀ o a, τ'.posted o a = (s.withShare outpoint funder share total wstEth).escrowOf o a + τ'.claimed o a) :
    Kept (s.withShare outpoint funder share total wstEth) τ' := by
  refine ⟨?_, fun o => ?_, hflow, ?_⟩
  · obtain ⟨n, hn, hwst⟩ := h.balance
    have hle := hn.le outpoint
    refine ⟨n - s.escrowTotal outpoint + total, hn.update (by omega), ?_⟩
    simp only [EscrowStorage.withShare, hstrayed]
    omega
  · obtain ⟨e, he, hif⟩ := h.shares o
    simp only [EscrowStorage.withShare, htaken]
    by_cases ho : o = outpoint
    · subst ho
      rw [Function.update_self, Function.update_self, hslashed]
      rw [hslashed] at hif
      have hle := he.le funder
      exact ⟨total, he.update (by simp at hif; omega), by simpa using hif.2⟩
    · rw [Function.update_of_ne ho, Function.update_of_ne ho]
      exact ⟨e, he, hif⟩
  · simpa only [EscrowStorage.withShare, htaken, hdrawn, hfunded] using h.reserve

theorem swept (h : Kept s τ) (hslashed : s.escrowSlashed outpoint = false) :
    Kept (s.swept outpoint) { τ with
      taken := Function.update τ.taken outpoint (τ.taken outpoint + ((s.swept outpoint).insuranceReserve - s.insuranceReserve)) } := by
  refine ⟨?_, fun o => ?_, h.flow, ?_⟩
  · obtain ⟨n, hn, hwst⟩ := h.balance
    have hle := hn.le outpoint
    refine ⟨n - s.escrowTotal outpoint, hn.update (by omega), ?_⟩
    simp only [EscrowStorage.swept]
    omega
  · obtain ⟨e, he, hif⟩ := h.shares o
    simp only [EscrowStorage.swept]
    by_cases ho : o = outpoint
    · subst ho
      rw [hslashed] at hif
      simp only [Bool.false_eq_true, if_false] at hif
      exact ⟨e, he, by simp [hif]⟩
    · simp only [Function.update_of_ne ho]
      exact ⟨e, he, hif⟩
  · obtain ⟨r, hr, hsum⟩ := h.reserve
    have hle := hr.le outpoint
    simp only [EscrowStorage.swept]
    refine ⟨r + s.escrowTotal outpoint, hr.update (by omega), by omega⟩

/-- Storage that the books do not read. -/
theorem of_eq (h : Kept s τ) {t : EscrowStorage} (hof : t.escrowOf = s.escrowOf) (htotal : t.escrowTotal = s.escrowTotal)
    (hslashed : t.escrowSlashed = s.escrowSlashed) (hreserve : t.insuranceReserve = s.insuranceReserve)
    (hwst : t.wstEth = s.wstEth) : Kept t τ := by
  obtain ⟨hb, hs, hf, hr⟩ := h
  exact ⟨by rwa [htotal, hwst, hreserve], fun o => by rw [hof, hslashed, htotal]; exact hs o, by rwa [hof], by rwa [hreserve]⟩

theorem drawn (h : Kept s τ) {self recipient : Address} (hle : amount ≤ s.insuranceReserve) (hpaid : amount ≤ s.wstEth) :
    Kept { s with
        insuranceReserve := s.insuranceReserve - amount
        wstEth := if recipient = self then s.wstEth else s.wstEth - amount }
      { τ with
        drawn := τ.drawn + (s.insuranceReserve - (s.insuranceReserve - amount))
        strayed := if recipient = self then τ.strayed + amount else τ.strayed } := by
  refine ⟨?_, h.shares, h.flow, ?_⟩
  · obtain ⟨n, hn, hwst⟩ := h.balance
    refine ⟨n, hn, ?_⟩
    dsimp only
    split <;> omega
  · obtain ⟨r, hr, hsum⟩ := h.reserve
    exact ⟨r, hr, by dsimp only; omega⟩

end Kept

section

variable {self : Address} {F : Flags} {env : Env} {s t : EscrowStorage} {τ : Trail} {u : Unit} {outpoint : Word} {amount : Nat}
  {paid : Bool}

theorem postEscrow_keeps (h : Kept s τ) (hrun : postEscrow F env outpoint amount paid s = .ok u t) :
    Kept t (τ.after self env s t (.postEscrow outpoint amount paid)) := by
  obtain ⟨hslashed, rfl⟩ := postEscrow_ok hrun
  refine h.withShare hslashed (by omega) (by omega) rfl rfl rfl rfl fun o a => ?_
  have hflow := h.flow o a
  simp only [EscrowStorage.withShare, Trail.after, Trail.bump_apply]
  by_cases ho : o = outpoint
  · subst ho
    by_cases ha : a = env.sender
    · subst ha
      simp only [Function.update_self, and_self, if_true]
      omega
    · simpa [ha] using hflow
  · simpa [ho] using hflow

theorem claimEscrow_keeps (h : Kept s τ) (hself : env.sender ≠ self) (hrun : claimEscrow self F env outpoint paid s = .ok u t) :
    Kept t (τ.after self env s t (.claimEscrow outpoint paid)) := by
  obtain ⟨hslashed, -, hle, hwst, rfl⟩ := claimEscrow_ok hself hrun
  refine h.withShare hslashed (by omega) (by omega) rfl rfl rfl rfl fun o a => ?_
  have hflow := h.flow o a
  simp only [EscrowStorage.withShare, Trail.after, Trail.bump_apply]
  by_cases ho : o = outpoint
  · subst ho
    by_cases ha : a = env.sender
    · subst ha
      simp only [Function.update_self, and_self, if_true]
      omega
    · simpa [ha] using hflow
  · simpa [ho] using hflow

/-- Every accepted call keeps the books. -/
theorem EscrowCall.run_keeps (h : Kept s τ) (hself : env.sender ≠ self) {c : EscrowCall} (hrun : c.run self F env s = .ok u t) :
    Kept t (τ.after self env s t c) := by
  cases c with
  | postEscrow outpoint amount paid => exact postEscrow_keeps h hrun
  | claimEscrow outpoint paid => exact claimEscrow_keeps h hself hrun
  | slash outpoint =>
    obtain ⟨hslashed, -, -, rfl⟩ := slash_ok hrun
    exact h.swept hslashed
  | flagEscrowUnhealthy outpoint =>
    obtain ⟨-, since, rfl⟩ := flagEscrowUnhealthy_ok hrun
    exact h.of_eq rfl rfl rfl rfl rfl
  | clearEscrowFlag outpoint =>
    obtain ⟨since, rfl⟩ := clearEscrowFlag_ok hrun
    exact h.of_eq rfl rfl rfl rfl rfl
  | clearEscrowFlagIfHealthy outpoint =>
    obtain ⟨since, rfl⟩ := clearEscrowFlagIfHealthy_ok hrun
    exact h.of_eq rfl rfl rfl rfl rfl
  | enforceEscrowToReserve outpoint =>
    obtain ⟨hslashed, -, rfl⟩ := enforceEscrowToReserve_ok hrun
    exact h.swept hslashed
  | fundInsurance amount paid =>
    obtain rfl := fundInsurance_ok hrun
    obtain ⟨⟨n, hn, hwst⟩, hshares, hflow, r, hr, hsum⟩ := h
    exact ⟨⟨n, hn, by simp only [Trail.after]; omega⟩, hshares, hflow, r, hr, by simp only [Trail.after]; omega⟩
  | drawInsurance amount recipient paid =>
    obtain ⟨hle, hpaid, rfl⟩ := drawInsurance_ok hrun
    exact h.drawn hle hpaid
  | drawInsuranceFor purpose amount recipient paid =>
    obtain ⟨v, hdraw⟩ := drawInsuranceFor_ok hrun
    obtain ⟨hle, hpaid, rfl⟩ := drawInsurance_ok hdraw
    exact h.drawn hle hpaid
  | setPool pool binds =>
    obtain rfl := setEscrowPool_ok hrun
    exact h.of_eq rfl rfl rfl rfl rfl
  | knob k =>
    rw [EscrowCall.run, zoom_eq_ok] at hrun
    obtain ⟨p, -, rfl⟩ := hrun
    exact h.of_eq rfl rfl rfl rfl rfl

/-- No call slashes a redeemed lock that the pool does not show as spent. -/
theorem EscrowCall.run_spares (hself : env.sender ≠ self) {c : EscrowCall} (hrun : c.run self F env s = .ok u t)
    (hredeemed : F.redeemed outpoint = true) (hspent : F.spent outpoint = false) :
    t.escrowSlashed outpoint = s.escrowSlashed outpoint := by
  cases c with
  | postEscrow o amount paid =>
    obtain ⟨-, rfl⟩ := postEscrow_ok hrun
    rfl
  | claimEscrow o paid =>
    obtain ⟨-, -, -, -, rfl⟩ := claimEscrow_ok hself hrun
    rfl
  | slash o =>
    obtain ⟨-, -, ho, rfl⟩ := slash_ok hrun
    have hne : outpoint ≠ o := by
      rintro rfl
      rw [hspent] at ho
      cases ho
    exact Function.update_of_ne hne ..
  | flagEscrowUnhealthy o =>
    obtain ⟨-, since, rfl⟩ := flagEscrowUnhealthy_ok hrun
    rfl
  | clearEscrowFlag o =>
    obtain ⟨since, rfl⟩ := clearEscrowFlag_ok hrun
    rfl
  | clearEscrowFlagIfHealthy o =>
    obtain ⟨since, rfl⟩ := clearEscrowFlagIfHealthy_ok hrun
    rfl
  | enforceEscrowToReserve o =>
    obtain ⟨-, ho, rfl⟩ := enforceEscrowToReserve_ok hrun
    have hne : outpoint ≠ o := by
      rintro rfl
      rw [hredeemed] at ho
      cases ho
    exact Function.update_of_ne hne ..
  | fundInsurance amount paid =>
    obtain rfl := fundInsurance_ok hrun
    rfl
  | drawInsurance amount recipient paid =>
    obtain ⟨-, -, rfl⟩ := drawInsurance_ok hrun
    rfl
  | drawInsuranceFor purpose amount recipient paid =>
    obtain ⟨v, hdraw⟩ := drawInsuranceFor_ok hrun
    obtain ⟨-, -, rfl⟩ := drawInsurance_ok hdraw
    rfl
  | setPool pool binds =>
    obtain rfl := setEscrowPool_ok hrun
    rfl
  | knob k =>
    rw [EscrowCall.run, zoom_eq_ok] at hrun
    obtain ⟨p, -, rfl⟩ := hrun
    rfl

end

/-! ## Runs -/

/-- What the pool may do to a lock between two calls: it mints, it records a spend or a redemption but never both, and
it keeps what it has recorded. -/
structure Flags.Moves (F G : Flags) : Prop where
  minted (outpoint : Word) : F.minted outpoint = true → G.minted outpoint = true
  spent (outpoint : Word) : F.spent outpoint = true → G.spent outpoint = true
  redeemed (outpoint : Word) : F.redeemed outpoint = true → G.redeemed outpoint = true
  exclusive (outpoint : Word) : G.redeemed outpoint = true → G.spent outpoint = false

/-- The engine's wstETH side beside the pool's flags, with the trail of the run. -/
structure EscrowWorld where
  flags : Flags
  storage : EscrowStorage
  trail : Trail

def EscrowWorld.initial (pool : Address) (vBtc : Word → Nat) : EscrowWorld :=
  ⟨⟨fun _ => false, fun _ => false, fun _ => false, vBtc⟩, .construct pool, .empty⟩

/-- The engine never calls itself. -/
inductive EscrowStep (self : Address) : EscrowWorld → EscrowWorld → Prop
  | call (env : Env) (c : EscrowCall) {w : EscrowWorld} {t : EscrowStorage} : env.sender ≠ self →
    c.run self w.flags env w.storage = .ok () t → EscrowStep self w ⟨w.flags, t, w.trail.after self env w.storage t c⟩
  | pool {w : EscrowWorld} {G : Flags} : w.flags.Moves G → EscrowStep self w { w with flags := G }

def EscrowReach (self : Address) (w : EscrowWorld) : Prop :=
  ∃ pool vBtc, Relation.ReflTransGen (EscrowStep self) (EscrowWorld.initial pool vBtc) w

structure EscrowWorld.Sound (w : EscrowWorld) : Prop where
  kept : Kept w.storage w.trail
  exclusive (outpoint : Word) : w.flags.redeemed outpoint = true → w.flags.spent outpoint = false

variable {self : Address} {w w' : EscrowWorld}

theorem EscrowStep.sound (hw : w.Sound) (h : EscrowStep self w w') : w'.Sound := by
  cases h with
  | call env c hself hrun => exact ⟨c.run_keeps hw.kept hself hrun, hw.exclusive⟩
  | pool hmoves => exact ⟨hw.kept, hmoves.exclusive⟩

theorem EscrowReach.sound (h : EscrowReach self w) : w.Sound := by
  obtain ⟨pool, vBtc, hrun⟩ := h
  induction hrun with
  | refl => exact ⟨.initial pool, nofun⟩
  | tail _ hstep ih => exact hstep.sound ih

/-- A lock once redeemed is never slashed afterwards. -/
theorem spared_run (hw : w.Sound) (h : Relation.ReflTransGen (EscrowStep self) w w') {outpoint : Word}
    (hredeemed : w.flags.redeemed outpoint = true) :
    w'.Sound ∧ w'.flags.redeemed outpoint = true ∧
      w'.storage.escrowSlashed outpoint = w.storage.escrowSlashed outpoint := by
  induction h with
  | refl => exact ⟨hw, hredeemed, rfl⟩
  | tail _ hstep ih =>
    obtain ⟨hsound, hred, hsame⟩ := ih
    refine ⟨hstep.sound hsound, ?_⟩
    cases hstep with
    | call env c hself hrun => exact ⟨hred, (c.run_spares hself hrun hred (hsound.exclusive outpoint hred)).trans hsame⟩
    | pool hmoves => exact ⟨hmoves.redeemed outpoint hred, hsame⟩

end CollateralEngine

open CollateralEngine in
/-- What a run posts of a lock is still a share of it or was claimed by its funder; the shares that a slash left behind
went to the reserve, once; no claim is paid while the lock backs cBTC, and a redeemed lock stays as it was. -/
theorem escrow_neither_lost_nor_paid_twice {self : Address} {w : EscrowWorld} (h : EscrowReach self w) :
    Kept w.storage w.trail ∧
    (∀ env outpoint paid t, env.sender ≠ self → w.flags.minted outpoint = true → w.flags.redeemed outpoint = false →
      claimEscrow self w.flags env outpoint paid w.storage ≠ .ok () t) ∧
    ∀ outpoint, w.flags.redeemed outpoint = true → ∀ w', Relation.ReflTransGen (EscrowStep self) w w' →
      w'.storage.escrowSlashed outpoint = w.storage.escrowSlashed outpoint ∧
      (∀ t, slash w'.flags outpoint w'.storage ≠ .ok () t) ∧
      ∀ env t, enforceEscrowToReserve w'.flags env outpoint w'.storage ≠ .ok () t := by
  refine ⟨h.sound.kept, fun env outpoint paid t hself hm hr hrun => ?_, fun outpoint hred w' hrun => ?_⟩
  · obtain ⟨-, hlive, -⟩ := claimEscrow_ok hself hrun
    rw [hlive hm] at hr
    cases hr
  · obtain ⟨hsound, hred', hsame⟩ := spared_run h.sound hrun hred
    refine ⟨hsame, fun t hslash => ?_, fun env t henforce => ?_⟩
    · obtain ⟨-, -, hspent, -⟩ := slash_ok hslash
      rw [hsound.exclusive outpoint hred'] at hspent
      cases hspent
    · obtain ⟨-, hfalse, -⟩ := enforceEscrowToReserve_ok henforce
      rw [hred'] at hfalse
      cases hfalse

namespace CollateralEngine

/-- Plays calls in turn, each after the pool has moved its flags to the ones given with it. -/
def playEscrow (self : Address) : EscrowWorld → List (Flags × Env × EscrowCall) → Option EscrowWorld
  | w, [] => some w
  | w, (G, env, c) :: calls =>
    if env.sender ≠ self then
      match c.run self G env w.storage with
      | .ok () t => playEscrow self ⟨G, t, w.trail.after self env w.storage t c⟩ calls
      | _ => none
    else none

/-- The flags given with the calls, each a move from the ones before. -/
def Flags.Chain : Flags → List (Flags × Env × EscrowCall) → Prop
  | _, [] => True
  | F, (G, _) :: calls => F.Moves G ∧ G.Chain calls

theorem run_of_playEscrow {self : Address} : ∀ {calls : List (Flags × Env × EscrowCall)} {w w' : EscrowWorld},
    w.flags.Chain calls → playEscrow self w calls = some w' → Relation.ReflTransGen (EscrowStep self) w w'
  | [], w, w', _, h => by
    rw [playEscrow, Option.some.injEq] at h
    exact h ▸ .refl
  | (G, env, c) :: calls, w, w', hchain, h => by
    rw [playEscrow] at h
    split at h
    case isFalse => cases h
    case isTrue hself =>
      split at h
      case h_2 => cases h
      case h_1 t hrun =>
        exact .head (.pool hchain.1) (.head (.call env c hself hrun) (run_of_playEscrow hchain.2 h))

/-- Lock 1 at each stage of its life. -/
def lockFlags (minted spent redeemed : Bool) : Flags :=
  ⟨fun o => minted && decide (o = wordOfNat 1), fun o => spent && decide (o = wordOfNat 1),
    fun o => redeemed && decide (o = wordOfNat 1), fun _ => 0⟩

end CollateralEngine

open CollateralEngine in
/-- Two funders post for lock 1, one leaves before the mint, and the lock is spent and slashed. -/
theorem escrow_neither_lost_nor_paid_twice_one_rug : ∃ w, EscrowReach 9 w ∧ w.storage.insuranceReserve = 4 ∧
    Kept w.storage w.trail := by
  have hplay : ((playEscrow 9 (.initial 1 fun _ => 0)
      [(lockFlags false false false, sampleEnv 3 1000, .postEscrow (wordOfNat 1) 4 true),
       (lockFlags false false false, sampleEnv 4 1000, .postEscrow (wordOfNat 1) 6 true),
       (lockFlags false false false, sampleEnv 4 1000, .claimEscrow (wordOfNat 1) true),
       (lockFlags true true false, sampleEnv 5 1000, .slash (wordOfNat 1))]).any
      fun w => w.storage.insuranceReserve = 4) = true := by decide +kernel
  obtain ⟨w, hw, hreserve⟩ := (Option.any_eq_true _ _).1 hplay
  have hreach : EscrowReach 9 w := by
    refine ⟨1, fun _ => 0, run_of_playEscrow ?_ hw⟩
    exact ⟨⟨nofun, nofun, nofun, nofun⟩, ⟨nofun, nofun, nofun, nofun⟩, ⟨nofun, nofun, nofun, nofun⟩,
      ⟨nofun, nofun, nofun, nofun⟩, trivial⟩
  exact ⟨w, hreach, of_decide_eq_true hreserve, (escrow_neither_lost_nor_paid_twice hreach).1⟩

open CollateralEngine in
/-- A draw to the engine itself leaves the reserve but not the balance. -/
theorem draw_to_self_strays : ∃ w, EscrowReach 9 w ∧
    ∀ n, Tally w.storage.escrowTotal n → w.storage.wstEth ≠ n + w.storage.insuranceReserve := by
  have hplay : ((playEscrow 9 (.initial 1 fun _ => 0)
      [(lockFlags false false false, sampleEnv 3 1000, .fundInsurance 5 true),
       (lockFlags false false false, sampleEnv 2 1000, .drawInsurance 5 9 true)]).any
      fun w => w.storage.insuranceReserve = 0 ∧ w.storage.wstEth = 5 ∧ w.trail.strayed = 5) = true := by decide +kernel
  obtain ⟨w, hw, hend⟩ := (Option.any_eq_true _ _).1 hplay
  obtain ⟨hreserve, hwst, hstrayed⟩ := of_decide_eq_true hend
  have hreach : EscrowReach 9 w := by
    refine ⟨1, fun _ => 0, run_of_playEscrow ?_ hw⟩
    exact ⟨⟨nofun, nofun, nofun, nofun⟩, ⟨nofun, nofun, nofun, nofun⟩, trivial⟩
  refine ⟨w, hreach, fun n hn hbalance => ?_⟩
  obtain ⟨m, hm, hsum⟩ := hreach.sound.kept.balance
  obtain rfl := hn.unique hm
  omega

end Tacit
