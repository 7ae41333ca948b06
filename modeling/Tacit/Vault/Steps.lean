import Tacit.Lib.PauseClock
import Tacit.Vault.Ledger
/-!
# What a call does to the pauses and the terms (contracts/src/TacVault.sol:335-422)

Two calls change the pauses, and `auctionTime` reads the same before and after each; three change the terms, one of them by a value
that has been checked against the other terms.
-/
namespace Tacit

namespace TacVault

open Prog

/-- The pauses as the clock reads them. -/
def Storage.pauses (s : Storage) : PauseClock := ⟨s.pausedFrom, s.pausedUntil, s.pausedBefore⟩

/-- The reading, and what a pause may take. -/
def Storage.Clocked (s : Storage) (now : Nat) : Prop := s.pauses.Paced maxPause now

section Calls

variable {cfg : Config} {e : Env} {s t : Storage} {now : Nat}

theorem Storage.Clocked.auctionTime (h : s.Clocked now) : TacVault.auctionTime now s = .ok (s.pauses.reading now) :=
  Storage.Paced.auctionTime ⟨h.ends, h.before, h.began⟩

theorem Calm.pauses (h : Calm s t) : t.pauses = s.pauses := by
  unfold Storage.pauses
  rw [h.pausedFrom, h.pausedUntil, h.pausedBefore]

theorem Touches.pauses {P : Vault → Prop} {owner : Address} (h : Touches P owner s t) : t.pauses = s.pauses := h.1.pauses

/-! ## What changes -/

/-- A call leaves the terms, puts in a value that stands its check, or lowers the depth share, or sets the redemption fee. -/
inductive Terms.Changes (cfg : Config) (t : Terms) : Terms → Prop
  | same : Changes cfg t t
  | execute {id : Param} {v : Nat} (valid : validate cfg t id v = .ok ()) : Changes cfg t (t.set v id)
  | lower {bps : Nat} (lower : bps < t.depthBps) : Changes cfg t { t with depthBps := bps }
  | fee (bps : Nat) : Changes cfg t { t with redemptionFeeBps := bps }

/-- What a call does. -/
structure Steps (cfg : Config) (now : Nat) (s t : Storage) : Prop where
  pauses : PauseClock.Changes maxPause now s.pauses t.pauses
  terms : s.terms.Changes cfg t.terms

theorem Steps.of_pauses (hpauses : PauseClock.Changes maxPause now s.pauses t.pauses) (hterms : t.terms = s.terms) :
    Steps cfg now s t := by
  refine ⟨hpauses, ?_⟩
  rw [hterms]
  exact .same

theorem Steps.of_same (h : s.Clocked now) (hpauses : t.pauses = s.pauses) (hterms : t.terms = s.terms) : Steps cfg now s t := by
  refine .of_pauses ?_ hterms
  rw [hpauses]
  exact .refl h

theorem Touches.steps {P : Vault → Prop} {owner : Address} (h : s.Clocked now) (ht : Touches P owner s t) : Steps cfg now s t :=
  .of_same h ht.1.pauses ht.1.terms

/-! ## The two calls that change the pauses -/

/-- A first pause, a later one once the last is waited out, or a longer end for the one that runs. -/
theorem runs_pause {duration : Nat} (h : s.Clocked e.now) : Runs (pauseAuctions e duration) s fun _ t =>
    Steps cfg e.now s t := by
  suffices hpause : Runs (pauseAuctions e duration) s fun _ t =>
      PauseClock.Changes maxPause e.now s.pauses t.pauses ∧ t.terms = s.terms from hpause.mono fun _ t ht => .of_pauses ht.1 ht.2
  unfold Storage.Clocked at h
  unfold pauseAuctions
  generalize maxPause = longest at h ⊢
  refine .get (.check (by simp [Fair]) fun _ => .check (by simp [Fair]) fun hduration => .except fair_add fun till htill => ?_)
  obtain ⟨-, rfl⟩ := add_eq_ok.1 htill
  by_cases hrun : e.now < s.pausedUntil
  · rw [if_pos hrun]
    refine .except fair_add fun most hmost => .check (by simp [Fair]) fun hlonger => ?_
    obtain ⟨-, rfl⟩ := add_eq_ok.1 hmost
    exact ⟨h.extend (Nat.le_of_lt hrun) (Nat.le_add_right _ _) (Nat.le_of_not_lt fun hlt => hlonger (.inr hlt)), rfl⟩
  · rw [if_neg hrun]
    refine .except fair_mul fun twice htwice => ?_
    obtain ⟨-, rfl⟩ := mul_eq_ok.1 htwice
    have hends : s.pausedFrom ≤ s.pausedUntil := h.ends
    refine .except (fair_sub (by omega)) fun wait hwait => .check (by simp [Fair]) fun hcool => ?_
    refine .except (fair_sub hends) fun ran hran => .except fair_add fun before hbefore => ?_
    obtain ⟨-, rfl⟩ := sub_eq_ok.1 hwait
    obtain ⟨-, rfl⟩ := sub_eq_ok.1 hran
    obtain ⟨-, rfl⟩ := add_eq_ok.1 hbefore
    exact ⟨h.begin (Nat.le_of_not_lt hrun) (Nat.le_of_not_lt hcool) (Nat.le_of_not_lt fun hlt => hduration (.inr hlt)), rfl⟩

theorem runs_resume (h : s.Clocked e.now) : Runs (resumeAuctions e) s fun _ t =>
    Steps cfg e.now s t := by
  refine .onlyOwner (.get (.check (by simp [Fair]) fun hrun => ?_))
  have hstop : e.now ≤ s.pausedUntil := Nat.le_of_lt (Nat.lt_of_not_le hrun)
  exact ⟨h.extend hstop (Nat.le_refl _) (Nat.le_trans hstop h.short), .same⟩

/-! ## Every call -/

theorem runs_governs_steps {c : Call} (hc : c.governs) (h : s.Clocked e.now) : Runs (c.prog cfg e) s fun _ t =>
    Steps cfg e.now s t := by
  have hsame {t : Storage} (hpauses : t.pauses = s.pauses) (hterms : t.terms = s.terms) : Steps cfg e.now s t :=
    .of_same h hpauses hterms
  cases c with
  | sendTac amount => exact hsame rfl rfl
  | moveSynth synth => exact hsame rfl rfl
  | setRedemptionFee bps => exact .onlyOwner (.check (by simp [Fair]) fun _ => ⟨.refl h, .fee bps⟩)
  | pauseAuctions duration => exact runs_pause h
  | resumeAuctions => exact runs_resume h
  | queueParam id v =>
    refine .onlyOwner (.get (.check (by simp [Fair]) fun _ => .check (by simp [Fair]) fun _ => .except fair_validate fun _ _ => ?_))
    generalize paramDelay = delay
    exact .except fair_add fun _ _ => hsame rfl rfl
  | executeParam id =>
    refine .onlyOwner (.get (.check (by simp [Fair]) fun _ => .check (by simp [Fair]) fun _ => .check (by simp [Fair]) fun _ => ?_))
    exact .check (by simp [Fair]) fun _ => .except fair_validate fun _ hvalid => ⟨.refl h, .execute hvalid⟩
  | queueOracle oracle =>
    refine .onlyOwner (.get (.check (by simp [Fair]) fun _ => .check (by simp [Fair]) fun _ => .except fair_checkWindows fun _ _ => ?_))
    generalize oracleDelay = delay
    exact .except fair_add fun _ _ => hsame rfl rfl
  | executeOracle =>
    show Runs (TacVault.executeOracle e) s _
    unfold TacVault.executeOracle
    generalize queueExpiry = expiry
    refine .onlyOwner (.get (.check (by simp [Fair]) fun _ => .check (by simp [Fair]) fun _ => .check (by simp [Fair]) fun _ => ?_))
    refine .except fair_add fun _ _ => .check (by simp [Fair]) fun _ => .except fair_answers fun _ _ => ?_
    exact .except fair_continuous fun _ _ => .check (by simp [Fair]) fun _ => hsame rfl rfl
  | setDebtCeiling ceiling | setBorrowFee bps | setFeeTo to' | setTacSink to' | setPauser to' | transferOwnership to' =>
    exact .onlyOwner (.check (by simp [Fair]) fun _ => hsame rfl rfl)
  | renounceOwnership => exact .onlyOwner (.check (by simp [Fair]) fun _ => hsame rfl rfl)
  | lowerDepthBps bps =>
    exact .onlyOwner (.get (.check (by simp [Fair]) fun _ => .check (by simp [Fair]) fun hbps =>
      ⟨.refl h, .lower (Nat.lt_of_not_le hbps)⟩))
  | cancelParam id | cancelOracle => exact .onlyOwner (.get (.check (by simp [Fair]) fun _ => hsame rfl rfl))
  | lockParams | lockOracle => exact .onlyOwner (hsame rfl rfl)
  | _ => exact hc.elim

theorem runs_steps {c : Call} (hs : Inv e.now s) (h : s.Clocked e.now) : Runs (c.prog cfg e) s fun _ t => Steps cfg e.now s t := by
  by_cases hc : c.governs
  · exact runs_governs_steps hc h
  cases c with
  | deposit amount => exact runs_depositFor.mono fun _ t ht => ht.steps h
  | depositFor owner amount => exact runs_depositFor.mono fun _ t ht => ht.steps h
  | repay owner amount => exact (runs_repay hs.known).mono fun _ t ht => ht.steps h
  | cancel owner => exact runs_cancel.mono fun _ t ht => ht.steps h
  | bid owner amount minTac => exact (runs_bid hs.known).mono fun _ t ht => ht.steps h
  | absorb owner => exact (runs_absorb hs.known).mono fun _ t ht => ht.steps h
  | redeem owner amount minTac => exact (runs_redeem hs.known).mono fun _ t ht => ht.steps h
  | withdraw amount => exact runs_withdrawTo.mono fun _ t ht => ht.steps h
  | borrow amount maxFeeBps => exact runs_borrowTo.mono fun _ t ht => ht.steps h
  | withdrawFor owner amount to' deadline sig =>
    refine runs_withdrawFor.mono fun _ t ⟨nonce, u, hsign, ht⟩ => ?_
    rw [hsign.2.2] at ht
    exact .of_same h ht.1.pauses ht.1.terms
  | borrowFor owner amount maxFeeBps minCollateral to' deadline sig =>
    refine runs_borrowFor.mono fun _ t ⟨nonce, u, hsign, ht⟩ => ?_
    rw [hsign.2.2] at ht
    exact .of_same h ht.1.pauses ht.1.terms
  | useNonce =>
    refine .bind (runs_useNonceOf.mono fun nonce t ⟨_, ht⟩ => ?_)
    subst ht
    exact .of_same h rfl rfl
  | liquidate owner =>
    refine (runs_liquidate hs.known).mono fun _ t ht => ?_
    subst ht
    exact .of_same h rfl rfl
  | _ => exact absurd trivial hc

end Calls

/-! ## Runs -/

section Runs

variable {cfg : Config} {e₀ : Env} {c₀ : Setup} {tac : Nat} {synth : Address → Nat} {s : Storage} {now : Nat}

/-- Calls one after another, at times from `now` on that do not go back. -/
def Timed (now : Nat) (calls : List (Env × Call)) : Prop := (∀ c ∈ calls, now ≤ c.1.now) ∧ calls.Pairwise fun c d => c.1.now ≤ d.1.now

/-- What a call at the time of the state keeps, and time keeps, holds after the calls. -/
theorem run_steps {R : Nat → Storage → Prop} (hlater : ∀ {now now' s}, s.Clocked now → now ≤ now' → R now s → R now' s)
    (hstep : ∀ {now s t}, Steps cfg now s t → R now s → R now t) : ∀ {calls : List (Env × Call)} {now : Nat} {s : Storage},
    Inv now s → s.Clocked now → R now s → Timed now calls → ∀ {now' : Nat}, (∀ c ∈ calls, c.1.now ≤ now') → now ≤ now' →
    Inv now' (run cfg calls s) ∧ (run cfg calls s).Clocked now' ∧ R now' (run cfg calls s)
  | [], _, _, hs, hc, hr, _, _, _, hle => ⟨hs.later hle, hc.later hle, hlater hc hle hr⟩
  | c :: calls, now, s, hs, hc, hr, ⟨hnow, htimes⟩, now', hlast, _ => by
    obtain ⟨hfirst, hrest⟩ := List.pairwise_cons.1 htimes
    have hle : now ≤ c.1.now := hnow c (by simp)
    have hcall : Inv c.1.now ((c.2.prog cfg c.1).call s) ∧ ((c.2.prog cfg c.1).call s).Clocked c.1.now ∧
        R c.1.now ((c.2.prog cfg c.1).call s) := by
      refine call_keeps (I := fun t => Inv c.1.now t ∧ t.Clocked c.1.now ∧ R c.1.now t)
        ⟨hs.later hle, hc.later hle, hlater hc hle hr⟩ fun _ t hok => ?_
      have hsteps : Steps cfg c.1.now s t := wp_of_ok (Q := fun _ t => Steps cfg c.1.now s t) (runs_steps (hs.later hle) (hc.later hle)) hok
      exact ⟨(wp_of_ok (runs_call (hs.later hle)) hok).1, hsteps.pauses.paced, hstep hsteps (hlater hc hle hr)⟩
    exact run_steps hlater hstep hcall.1 hcall.2.1 hcall.2.2 ⟨hfirst, hrest⟩ (fun d hd => hlast d (by simp [hd])) (hlast c (by simp))

theorem construct_clocked (h : construct cfg e₀ c₀ tac synth = .ok s) : s.Clocked 0 := by
  simp only [construct, except_bind_eq_ok, refuse_eq_ok, except_pure_eq_ok] at h
  obtain ⟨_, -, _, -, _, -, _, -, _, -, _, -, _, -, _, -, _, -, _, -, _, -, _, -, rfl⟩ := h
  exact ⟨Nat.le_refl _, Nat.le_refl _, Nat.le_refl _, Nat.zero_le _⟩

end Runs

end TacVault

end Tacit
