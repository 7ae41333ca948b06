import Tacit.Vault.Steps
/-!
# The auction clock (contracts/src/TacVault.sol:342-375)

`auctionTime` is read off three stored times. A pause changes two or three of them at once, an extension and a resume one, and the
total of the past pauses grows only when the next begins. Over a run of calls it is one clock: the seconds that are not paused, of
which there are at least half, but for one pause.
-/
namespace Tacit

namespace TacVault

open Prog

/-- The state once the calls by the time `t` are made. -/
def stateAt (cfg : Config) (calls : List (Env × Call)) (s₀ : Storage) (t : Nat) : Storage :=
  run cfg (calls.filter fun c => c.1.now ≤ t) s₀

section Split

variable {calls : List (Env × Call)} {t t' : Nat}

/-- Calls in the order of their times: those by `t` come first. -/
theorem filter_le_append (h : calls.Pairwise fun c d => c.1.now ≤ d.1.now) :
    calls.filter (fun c => c.1.now ≤ t) ++ calls.filter (fun c => t < c.1.now) = calls := by
  induction calls with
  | nil => rfl
  | cons c calls ih =>
    obtain ⟨hfirst, hrest⟩ := List.pairwise_cons.1 h
    by_cases hc : c.1.now ≤ t
    · simpa [hc, Nat.not_lt.2 hc] using ih hrest
    · have hnone : calls.filter (fun c => c.1.now ≤ t) = [] :=
        List.filter_eq_nil_iff.2 fun d hd => by
          have := hfirst d hd
          simp only [decide_eq_true_eq]
          omega
      have hall : calls.filter (fun c => t < c.1.now) = calls :=
        List.filter_eq_self.2 fun d hd => by
          have := hfirst d hd
          simp only [decide_eq_true_eq]
          omega
      simp [hc, hnone, hall, Nat.lt_of_not_le hc]

theorem filter_le_of_le (h : calls.Pairwise fun c d => c.1.now ≤ d.1.now) (hle : t ≤ t') :
    calls.filter (fun c => c.1.now ≤ t') =
      calls.filter (fun c => c.1.now ≤ t) ++ calls.filter (fun c => t < c.1.now ∧ c.1.now ≤ t') := by
  conv_lhs => rw [← filter_le_append (t := t) h]
  rw [List.filter_append, List.filter_filter, List.filter_filter]
  congr 1
  · refine List.filter_congr fun c _ => ?_
    have : c.1.now ≤ t → c.1.now ≤ t' := fun hc => Nat.le_trans hc hle
    by_cases hc : c.1.now ≤ t <;> simp [hc, this]
  · refine List.filter_congr fun c _ => ?_
    simp [and_comm]

end Split

section Clock

variable {cfg : Config} {e₀ : Env} {c₀ : Setup} {tac : Nat} {synth : Address → Nat} {s s₀ : Storage}
  {calls before after : List (Env × Call)} {now t t₁ t₂ : Nat}

theorem run_append : run cfg (before ++ after) s = run cfg after (run cfg before s) := List.foldl_append

/-- Calls at one time leave the reading at that time. -/
theorem reading_run (hs : Inv t s) (hc : s.Clocked t) (htimes : calls.Pairwise fun c d => c.1.now ≤ d.1.now)
    (hnow : ∀ c ∈ calls, c.1.now = t) : (run cfg calls s).pauses.reading t = s.pauses.reading t := by
  suffices hrun : t ≤ t ∧ (t ≤ t → (run cfg calls s).pauses.reading t = s.pauses.reading t) from hrun.2 (Nat.le_refl t)
  refine (run_steps (R := fun now u => t ≤ now ∧ (now ≤ t → u.pauses.reading now = s.pauses.reading t))
    ?_ ?_ hs hc ?_ ⟨fun c hc => Nat.le_of_eq (hnow c hc).symm, htimes⟩ (fun c hc => Nat.le_of_eq (hnow c hc)) (Nat.le_refl t)).2.2
  · intro now now' u _ hle hr
    refine ⟨hr.1.trans hle, fun hlast => ?_⟩
    obtain rfl : now = now' := Nat.le_antisymm hle (hlast.trans hr.1)
    exact hr.2 hlast
  · exact fun hsteps hr => ⟨hr.1, fun hlast => hsteps.pauses.reading.trans (hr.2 hlast)⟩
  · exact ⟨Nat.le_refl t, fun _ => rfl⟩

/-- The clock ran for half the time since `t₁`, but for the latest pause. -/
theorem progress_run (hs : Inv t₁ s) (hc : s.Clocked t₁) (htimes : Timed t₁ calls) (hlast : ∀ c ∈ calls, c.1.now ≤ t₂)
    (hle : t₁ ≤ t₂) : PauseClock.Progress t₁ (s.pauses.reading t₁) (run cfg calls s).pauses t₂ :=
  (run_steps (R := fun now u => PauseClock.Progress t₁ (s.pauses.reading t₁) u.pauses now)
    (fun hc hle hp => hp.later hc hle) (fun hsteps hp => hsteps.pauses.progress hp) hs hc .start htimes hlast hle).2.2

/-- What holds of every state that a call or a view meets. -/
theorem run_reached (h : construct cfg e₀ c₀ tac synth = .ok s₀) (htimes : calls.Pairwise fun c d => c.1.now ≤ d.1.now)
    (hlast : ∀ c ∈ calls, c.1.now ≤ t) : Inv t (run cfg calls s₀) ∧ (run cfg calls s₀).Clocked t := by
  have hrun : Inv t (run cfg calls s₀) ∧ (run cfg calls s₀).Clocked t ∧ True := run_steps (R := fun _ _ => True) (fun _ _ _ => trivial) (fun _ _ => trivial) (construct_inv h)
    (construct_clocked h) trivial ⟨fun _ _ => Nat.zero_le _, htimes⟩ hlast (Nat.zero_le t)
  exact ⟨hrun.1, hrun.2.1⟩

variable (h : construct cfg e₀ c₀ tac synth = .ok s₀) (htimes : calls.Pairwise fun c d => c.1.now ≤ d.1.now)

include h htimes

theorem stateAt_reached (t : Nat) : Inv t (stateAt cfg calls s₀ t) ∧ (stateAt cfg calls s₀ t).Clocked t :=
  run_reached h (htimes.filter _) fun _ hc => by simpa using (List.mem_filter.1 hc).2

/-- Between the calls at a time the clock reads the same. -/
theorem reading_between (hsplit : calls = before ++ after) (hbefore : ∀ c ∈ before, c.1.now ≤ t)
    (hafter : ∀ c ∈ after, t ≤ c.1.now) :
    (stateAt cfg calls s₀ t).pauses.reading t = (run cfg before s₀).pauses.reading t := by
  obtain ⟨htimes₁, htimes₂, -⟩ := List.pairwise_append.1 (hsplit ▸ htimes)
  obtain ⟨hs, hc⟩ := run_reached h htimes₁ hbefore
  have hall : before.filter (fun c => c.1.now ≤ t) = before := List.filter_eq_self.2 fun c hc => by simpa using hbefore c hc
  rw [stateAt, hsplit, List.filter_append, hall, run_append]
  refine reading_run hs hc (htimes₂.filter _) fun c hc => ?_
  obtain ⟨hmem, hle⟩ := List.mem_filter.1 hc
  exact Nat.le_antisymm (by simpa using hle) (hafter c hmem)

theorem reading_succ (t : Nat) : (stateAt cfg calls s₀ (t + 1)).pauses.reading (t + 1) =
    (stateAt cfg calls s₀ t).pauses.reading t + if (stateAt cfg calls s₀ t).paused t then 0 else 1 := by
  have hsplit := (filter_le_append (t := t) htimes).symm
  rw [reading_between h htimes hsplit (fun c hc => ?_) fun c hc => ?_]
  · exact (stateAt_reached h htimes t).2.reading_succ
  · have hle : c.1.now ≤ t := by simpa using (List.mem_filter.1 hc).2
    exact Nat.le_succ_of_le hle
  · have hlt : t < c.1.now := by simpa using (List.mem_filter.1 hc).2
    exact hlt

theorem progress_between (hle : t₁ ≤ t₂) : PauseClock.Progress t₁ ((stateAt cfg calls s₀ t₁).pauses.reading t₁)
    (stateAt cfg calls s₀ t₂).pauses t₂ := by
  obtain ⟨hs, hc⟩ := stateAt_reached h htimes t₁
  have hlater : ∀ c ∈ calls.filter (fun c => t₁ < c.1.now ∧ c.1.now ≤ t₂), t₁ < c.1.now ∧ c.1.now ≤ t₂ :=
    fun c hc => by simpa using (List.mem_filter.1 hc).2
  have hsplit : stateAt cfg calls s₀ t₂ =
      run cfg (calls.filter fun c => t₁ < c.1.now ∧ c.1.now ≤ t₂) (stateAt cfg calls s₀ t₁) := by
    rw [stateAt, filter_le_of_le htimes hle, run_append]
    rfl
  rw [hsplit]
  exact progress_run hs hc ⟨fun c hc => Nat.le_of_lt (hlater c hc).1, htimes.filter _⟩ (fun c hc => (hlater c hc).2) hle

/-- **The auction clock**, over any calls by anyone: `auctionTime` has one reading at a time, between any two calls, and no auction
began at a later one; it never falls, stands still through a second that begins paused and else goes on by one; no pause is longer
than `maxPause`; and between any two times it runs for half the time less `maxPause`. -/
theorem auction_clock : ∃ clock : Nat → Nat,
    (∀ t before after, calls = before ++ after → (∀ c ∈ before, c.1.now ≤ t) → (∀ c ∈ after, t ≤ c.1.now) →
      auctionTime t (run cfg before s₀) = .ok (clock t) ∧ ∀ o, ((run cfg before s₀).vaults o).auctionStart ≤ clock t) ∧
    Monotone clock ∧
    (∀ t, clock (t + 1) = clock t + if (stateAt cfg calls s₀ t).paused t then 0 else 1) ∧
    (∀ t, (stateAt cfg calls s₀ t).pausedUntil ≤ (stateAt cfg calls s₀ t).pausedFrom + maxPause) ∧
    (∀ t₁ t₂, t₁ ≤ t₂ → (∀ t, t₁ ≤ t → t < t₂ → (stateAt cfg calls s₀ t).paused t) → t₂ ≤ t₁ + maxPause) ∧
    ∀ t₁ t₂ : Nat, t₁ ≤ t₂ → (t₂ : Int) - t₁ - maxPause ≤ 2 * ((clock t₂ : Int) - clock t₁) := by
  have hsucc := reading_succ h htimes
  have hprogress {t₁ t₂ : Nat} (hle : t₁ ≤ t₂) : t₂ + 2 * (stateAt cfg calls s₀ t₁).pauses.reading t₁ ≤
      t₁ + 2 * (stateAt cfg calls s₀ t₂).pauses.reading t₂ + maxPause := by
    have hrun := progress_between h htimes hle
    have howed := (stateAt_reached h htimes t₂).2.owed_le
    unfold PauseClock.Progress at hrun
    omega
  refine ⟨fun t => (stateAt cfg calls s₀ t).pauses.reading t, fun t before after hsplit hbefore hafter => ?_, ?_, hsucc, fun t => ?_,
    fun t₁ t₂ hle hpaused => ?_, fun t₁ t₂ hle => ?_⟩
  · obtain ⟨hs, hc⟩ := run_reached h (List.pairwise_append.1 (hsplit ▸ htimes)).1 hbefore
    show TacVault.auctionTime t (run cfg before s₀) = .ok ((stateAt cfg calls s₀ t).pauses.reading t) ∧
      ∀ o, ((run cfg before s₀).vaults o).auctionStart ≤ (stateAt cfg calls s₀ t).pauses.reading t
    rw [reading_between h htimes hsplit hbefore hafter]
    exact ⟨hc.auctionTime, hs.started⟩
  · refine monotone_nat_of_le_succ fun t => ?_
    rw [hsucc]
    exact Nat.le_add_right _ _
  · exact (stateAt_reached h htimes t).2.short
  · have hstill : (stateAt cfg calls s₀ t₂).pauses.reading t₂ = (stateAt cfg calls s₀ t₁).pauses.reading t₁ := by
      induction t₂, hle using Nat.le_induction with
      | base => rfl
      | succ t hle ih =>
        rw [hsucc, if_pos (hpaused t hle (Nat.lt_succ_self t)), Nat.add_zero]
        exact ih fun u hu hlt => hpaused u hu (Nat.lt_succ_of_lt hlt)
    have := hprogress hle
    omega
  · have := hprogress hle
    dsimp only
    omega

end Clock

/-- A pause of ten seconds in the life of a vault. -/
theorem auction_clock_paused : ∃ (s₀ : Storage) (clock : Nat → Nat), construct demoVaultConfig demoVaultEnv demoSetup 0 (fun _ => 0) = .ok s₀ ∧
    auctionTime 20 (run demoVaultConfig [({ demoVaultEnv with sender := 1, now := 5 }, .pauseAuctions 10)] s₀) = .ok (clock 20) ∧
    clock 6 = clock 5 := by
  have hs₀ : construct demoVaultConfig demoVaultEnv demoSetup 0 (fun _ => 0) = .ok _ := rfl
  let calls : List (Env × Call) := [({ demoVaultEnv with sender := 1, now := 5 }, .pauseAuctions 10)]
  have htimes : calls.Pairwise fun c d => c.1.now ≤ d.1.now := List.pairwise_singleton _ _
  obtain ⟨clock, hread, -, hsucc, -⟩ := auction_clock hs₀ htimes
  refine ⟨_, clock, hs₀, (hread 20 calls [] rfl (by simp [calls]) (by simp)).1, ?_⟩
  rw [hsucc 5, if_pos (by decide), Nat.add_zero]

end TacVault

end Tacit
