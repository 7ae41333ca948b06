import Tacit.Collateral.Accounts
/-!
# The fee budget and the cUSD in circulation, over every run

The two results about the engine's books: the budget is claimed to the unit, and no cUSD circulates that the open
positions do not owe. A draw that was authorised stays payable; only arithmetic that no longer fits in a word, which
takes centuries of the highest fee, can stop it (`surplus_draw_overflows`).
-/
namespace Tacit

open Prog RewardLedger

namespace CollateralEngine

variable {M : FixedPointMath} {env : Env} {cfg : Config} {w w' : World} {L : RewardLedger Nat}

/-- The error of a run that fails. -/
def failure {σ ε α : Type} (m : Prog σ ε α) (s : σ) : Option ε :=
  match m s with
  | .err e _ => some e
  | _ => none

/-- What the engine guarantees of its fee budget in a state. -/
structure FeeBudget (M : FixedPointMath) (cfg : Config) (w : World) : Prop where
  budget : let v := w.storage.savings
    v.totalSavingsRewardDebt ≤ v.savingsRps * v.totalSavingsShares ∧
    v.feeBudgetCusd = (v.savingsRps * v.totalSavingsShares - v.totalSavingsRewardDebt) / savingsPrecision + v.surplusFeeCusd ∧
    (v.savingsRps * v.totalSavingsShares < 2 ^ 256 → outstandingSavingsReward v =
      .ok ((v.savingsRps * v.totalSavingsShares - v.totalSavingsRewardDebt) / savingsPrecision) v)
  stamps : ∃ live : Finset Nat, (∀ r, w.storage.savings.savingsEntryStamped r = true ↔ r ∈ live) ∧
    w.storage.savings.totalSavingsShares = ∑ r ∈ live, w.view.bonded r ∧
    w.storage.savings.totalSavingsRewardDebt = ∑ r ∈ live, w.view.bonded r * w.storage.savings.savingsEntryRps r
  exact : ∀ env c e, env.now = w.now → w.view.Admits c → failure (c.run M env cfg) w.storage = some e →
    e ≠ .panic .sub ∧ e ≠ .sameSettleSavingsBondAndFee
  entitled : ∀ r n, w.storage.savings.savingsEntryStamped r = true →
    M.fullMulDiv (w.view.bonded r) (w.storage.savings.savingsRps - w.storage.savings.savingsEntryRps r) savingsPrecision =
      some n → n ≤ w.storage.savings.feeBudgetCusd
  payable : ∀ w' env legs e, Relation.ReflTransGen (Step M cfg fun c => ¬ c.Draws) w w' →
    w.storage.savings.pendingSurplusDraw.amount ≠ 0 → env.now = w'.now → env.sender = w'.storage.pool →
    failure (onCdpMint M env cfg legs w.storage.savings.pendingSurplusDraw.amount 2
      w.storage.savings.pendingSurplusDraw.destCommitment) w'.storage = some e → Overflow e

theorem failure_of_wp {σ ε α : Type} {m : Prog σ ε α} {s : σ} {A : Prop} {P : ε → Prop} {Q : α → σ → Prop} {e : ε}
    (h : wp A m s (fun e _ => P e) Q) (he : failure m s = some e) : P e := by
  unfold failure at he
  unfold wp at h
  cases hm : m s with
  | panic => simp [hm] at he
  | ok a t => simp [hm] at he
  | err e' t =>
    rw [hm] at he h
    cases he
    exact h

/-- Quiet calls leave the pending draw as it was authorised. -/
theorem pending_of_quiet (hM : M.Exact) (hw : w.Sound M) (h : Relation.ReflTransGen (Step M cfg fun c => ¬ c.Draws) w w') :
    w'.Sound M ∧ w'.storage.savings.pendingSurplusDraw = w.storage.savings.pendingSurplusDraw := by
  induction h with
  | refl => exact ⟨hw, rfl⟩
  | tail _ hstep ih =>
    refine ⟨hstep.sound hM ih.1, ?_⟩
    rw [← ih.2]
    obtain ⟨L, hL⟩ := ih.1
    cases hstep with
    | call env c hnow hadm hquiet hrun =>
      rw [← hnow] at hL
      obtain ⟨-, hpending, -⟩ := wp_of_ok (Call.run_spec hM hL c hadm) hrun
      exact hpending hquiet
    | endTransaction now' hle => rfl

/-- The draw fails by overflow if at all. -/
theorem draw_payable (hM : M.Exact) {s : Storage} {g : PoolView} (h : Inv M env.now g s L) (hpool : env.sender = s.pool)
    (hpending : s.savings.pendingSurplusDraw.amount ≠ 0) {legs : List ConfidentialPool.CdpLeg} :
    wp False (onCdpMint M env cfg legs s.savings.pendingSurplusDraw.amount 2 s.savings.pendingSurplusDraw.destCommitment) s
      (fun e _ => Overflow e) (fun _ _ => True) := by
  rw [onCdpMint, wp_bind, wp_get, wp_bind, wp_check]
  refine ⟨fun hne => absurd hpool hne, fun _ => ?_⟩
  rw [wp_bind]
  refine wp_mono (drip_spec hM h) id (fun _ _ he => he) ?_
  rintro _ t ⟨⟨n, ht⟩, hd⟩
  rw [if_neg (by decide), if_pos rfl, onSavings, wp_zoom, ← hd.pending_eq]
  rw [← hd.pending_eq] at hpending
  refine wp_mono (surplusDraw_payable ht.savings hpending) id ?_ fun _ _ _ => trivial
  rintro e _ ⟨rfl, -⟩
  simp [Overflow]

theorem World.Sound.feeBudget (hM : M.Exact) (h : w.Sound M) : FeeBudget M cfg w := by
  obtain ⟨L, hL⟩ := id h
  have hsum := hL.savings.owed_add_debt
  have howed : L.owed = w.storage.savings.savingsRps * w.storage.savings.totalSavingsShares -
      w.storage.savings.totalSavingsRewardDebt := by omega
  refine ⟨⟨?_, ?_, fun hlt => ?_⟩, ⟨L.live, hL.savings.stamped, ?_, ?_⟩, ?_, ?_, ?_⟩
  · omega
  · rw [← howed]
    exact hL.savings.budget
  · rw [← howed, ok_iff_wp, hL.savings.outstanding]
    exact ⟨fun hle => absurd hlt (Nat.not_lt.2 hle), fun _ => ⟨rfl, rfl⟩⟩
  · rw [← hL.savings.total, total, hL.shares]
  · rw [← hL.savings.debt, debt]
    exact Finset.sum_congr rfl fun r hr => by rw [hL.shares, hL.savings.entry r hr]
  · intro env c e hnow hadm he
    rw [← hnow] at hL
    exact failure_of_wp (P := Fair) (Call.run_spec hM hL c hadm) he
  · intro r n hr hn
    rw [← hL.shares] at hn
    exact hL.savings.entitled_le hM hr hn
  · intro w' env legs e hrun hpending hnow hpool he
    obtain ⟨⟨L', hL'⟩, heq⟩ := pending_of_quiet hM h hrun
    rw [← heq] at hpending he
    rw [← hnow] at hL'
    exact failure_of_wp (draw_payable hM hL' hpool hpending) he

end CollateralEngine

open CollateralEngine in
/-- Every unit of the fee budget has exactly one claimant, in every state the engine can reach. -/
theorem fee_budget_claimed {M : FixedPointMath} (hM : M.Exact) {cfg : Config} {w : World} (h : Reach M cfg w) :
    FeeBudget M cfg w := (h.sound hM).feeBudget hM

open CollateralEngine in
/-- No cUSD circulates that the open positions do not owe, and the rate does not fall. -/
theorem cusd_backed {M : FixedPointMath} (hM : M.Exact) (hG : M.Grows) {cfg : Config} {w : World} (h : Reach M cfg w) :
    (w.view.circulating : ℚ) + w.storage.savings.feeBudgetCusd ≤ w.view.owedAt w.storage.rate ∧
    w.storage.outstandingCusd = w.view.principal ∧
    w.storage.normalizedDebtRay = w.view.normalized ∧
    (∀ env c e, env.now = w.now → w.view.Admits c → failure (c.run M env cfg) w.storage = some e → e ≠ .panic .sub) ∧
    ∀ w', Step M cfg (fun _ => True) w w' → w.storage.rate ≤ w'.storage.rate := by
  obtain ⟨L, hL⟩ := h.sound hM
  refine ⟨(hL.backed hG).covered, hL.outstanding, hL.normalized, fun env c e hnow hadm he => ?_, fun w' hstep => ?_⟩
  · exact (((h.sound hM).feeBudget hM).exact env c e hnow hadm he).1
  · cases hstep with
    | call env c hnow hadm _ hrun =>
      rw [← hnow] at hL
      obtain ⟨-, -, hrate⟩ := wp_of_ok (Call.run_spec hM hL c hadm) hrun
      exact hrate hG
    | endTransaction now' hle => exact Nat.le_refl _

namespace CollateralEngine

/-! ## A run -/

/-- `rpow`: square and round, then multiply in the odd bits. -/
def rpowLoop (b : Nat) : Nat → Nat → Nat → Nat → Option Nat
  | 0, _, _, z => some z
  | fuel + 1, x, y, z =>
    if y = 0 then some z
    else if 2 ^ 128 ≤ x ∨ 2 ^ 256 ≤ x * x + b / 2 then none
    else
      let x := (x * x + b / 2) / b
      if y % 2 = 0 then rpowLoop b fuel x (y / 2) z
      else if 2 ^ 256 ≤ z * x + b / 2 then none
      else rpowLoop b fuel x (y / 2) ((z * x + b / 2) / b)

/-- The library as it is documented. -/
def solady : FixedPointMath where
  fullMulDiv x y d := if d = 0 ∨ 2 ^ 256 ≤ x * y / d then none else some (x * y / d)
  fullMulDivUp x y d := if d = 0 ∨ 2 ^ 256 ≤ (x * y + d - 1) / d then none else some ((x * y + d - 1) / d)
  rpow x y b := if x = 0 then some (if y = 0 then b else 0) else rpowLoop b 256 x (y / 2) (if y % 2 = 0 then b else x)

theorem solady_exact : solady.Exact where
  fullMulDiv_eq := by
    intro x y d n h
    simp only [solady] at h
    split at h
    · cases h
    · cases h
      rfl
  le_fullMulDivUp := by
    intro x y d n h
    simp only [solady] at h
    split at h
    case isTrue => cases h
    case isFalse hd =>
      cases h
      rw [not_or] at hd
      have hpos : 0 < d := Nat.pos_of_ne_zero hd.1
      generalize x * y = p
      have hdiv := Nat.div_add_mod (p + d - 1) d
      have hmod := Nat.mod_lt (p + d - 1) hpos
      rw [Nat.mul_comm ((p + d - 1) / d)]
      omega

/-- The product of two factors above one, rounded to nearest, is above one. -/
theorem le_round {b x z : Nat} (hb : 0 < b) (hx : b ≤ x) (hz : b ≤ z) : b ≤ (z * x + b / 2) / b := by
  rw [Nat.le_div_iff_mul_le hb]
  exact (Nat.mul_le_mul hz hx).trans (Nat.le_add_right _ _)

theorem rpowLoop_ge {b : Nat} (hb : 0 < b) : ∀ {fuel x y z n : Nat}, b ≤ x → b ≤ z → rpowLoop b fuel x y z = some n → b ≤ n
  | 0, _, _, _, _, _, hz, h => by
    rw [rpowLoop, Option.some.injEq] at h
    exact h ▸ hz
  | fuel + 1, x, y, z, n, hx, hz, h => by
    rw [rpowLoop] at h
    split at h
    · rw [Option.some.injEq] at h
      exact h ▸ hz
    · split at h
      · cases h
      · have hx' := le_round hb hx hx
        dsimp only at h
        split at h
        · exact rpowLoop_ge hb hx' hz h
        · split at h
          · cases h
          · exact rpowLoop_ge hb hx' (le_round hb hx' hz) h

theorem solady_grows : solady.Grows := by
  intro x n z hx h
  have hne : x ≠ 0 := by omega
  simp only [solady, if_neg hne] at h
  refine rpowLoop_ge ray_pos hx.le ?_ h
  split
  · exact Nat.le_refl _
  · exact hx.le

instance {g : PoolView} {c : Call} : Decidable (g.Admits c) := by
  cases c <;> unfold PoolView.Admits <;> infer_instance

/-- Plays calls at given times; between two times a transaction ends. -/
def play (M : FixedPointMath) (cfg : Config) : World → List (Env × Call) → Option World
  | w, [] => some w
  | w, (env, c) :: calls =>
    if w.now ≤ env.now ∧ w.view.Admits c then
      match c.run M env cfg { w.storage with savingsBonded := false } with
      | .ok () t => play M cfg ⟨env.now, w.view.after c, t⟩ calls
      | _ => none
    else none

theorem reach_of_play : ∀ {calls : List (Env × Call)} {w w' : World}, Reach M cfg w → play M cfg w calls = some w' →
    Reach M cfg w'
  | [], w, w', hw, h => by
    rw [play, Option.some.injEq] at h
    exact h ▸ hw
  | (env, c) :: calls, w, w', hw, h => by
    rw [play] at h
    split at h
    case isFalse => cases h
    case isTrue hcond =>
      split at h
      case h_2 => cases h
      case h_1 t hrun =>
        obtain ⟨pool, now, hreach⟩ := hw
        refine reach_of_play ⟨pool, now, (hreach.tail (Step.endTransaction env.now hcond.1)).tail ?_⟩ h
        exact Step.call env c rfl hcond.2 trivial hrun

/-- Feeds 11 and 12: one wstETH is a twentieth of a bitcoin, a bitcoin is 100000 dollars. -/
def sampleEnv (sender : Address) (now : Nat) : Env where
  sender := sender
  owner := 2
  now := now
  hasCode _ := true
  round feed := some ⟨1, if feed = 11 then 5 * 10 ^ 6 else 10 ^ 13, now, 1, 8⟩
  twap _ := none

def sampleConfig : Config := ⟨wordOfNat 7, wordOfNat 8⟩

/-- A loan of 11000 dollars at the highest fee; a surplus is authorised after 136 years, and after as many more the one
saver is joined by another. -/
def longRun : List (Env × Call) :=
  [(sampleEnv 2 1000, .knob (.setFeeds 11 12 0 0)),
   (sampleEnv 2 1000, .setStabilityFee maxFeePerSecond),
   (sampleEnv 1 30000, .onCdpMint [⟨wordOfNat 7, 10 ^ 8⟩] (2 ^ 40) 3 ray),
   (sampleEnv 3 (30000 + 2 ^ 32), .drip),
   (sampleEnv 2 (30000 + 2 ^ 32), .authorizeSurplusDraw 1 7),
   (sampleEnv 1 (30000 + 2 ^ 32), .onCdpMint [⟨wordOfNat 8, 1⟩] 0 1 5),
   (sampleEnv 3 (30000 + 2 ^ 33), .drip),
   (sampleEnv 1 (30000 + 2 ^ 33), .onCdpMint [⟨wordOfNat 8, 282372013⟩] 0 1 6)]

end CollateralEngine

open CollateralEngine in
theorem fee_budget_claimed_one_saver : ∃ w, play solady sampleConfig (World.initial 1 1000) (longRun.take 7) = some w ∧
    FeeBudget solady sampleConfig w := by
  have hrun : (play solady sampleConfig (World.initial 1 1000) (longRun.take 7)).isSome := by decide +kernel
  obtain ⟨w, hw⟩ := Option.isSome_iff_exists.1 hrun
  exact ⟨w, hw, fee_budget_claimed solady_exact (reach_of_play ⟨1, 1000, .refl⟩ hw)⟩

open CollateralEngine in
/-- The draw authorised in the long run is neither executed nor replaced, and reverts: with the second saver the view's
product no longer fits in a word. -/
theorem surplus_draw_overflows : ∃ w, Reach solady sampleConfig w ∧
    w.storage.savings.pendingSurplusDraw.amount = 1 ∧ w.storage.savings.pendingSurplusDraw.destCommitment = 7 ∧
    w.storage.pool = 1 ∧ failure (onCdpMint solady (sampleEnv 1 w.now) sampleConfig [] 1 2 7) w.storage = some (.panic .mul) ∧
    failure outstandingSavingsReward w.storage.savings = some (.panic .mul) := by
  have hrun : (play solady sampleConfig (World.initial 1 1000) longRun).any (fun w =>
      w.storage.savings.pendingSurplusDraw.amount = 1 ∧ w.storage.savings.pendingSurplusDraw.destCommitment = 7 ∧
      w.storage.pool = 1 ∧ failure (onCdpMint solady (sampleEnv 1 w.now) sampleConfig [] 1 2 7) w.storage = some (.panic .mul) ∧
      failure outstandingSavingsReward w.storage.savings = some (.panic .mul)) = true := by
    decide +kernel
  obtain ⟨w, hw, hprops⟩ := (Option.any_eq_true _ _).1 hrun
  exact ⟨w, reach_of_play ⟨1, 1000, .refl⟩ hw, of_decide_eq_true hprops⟩

open CollateralEngine in
theorem cusd_backed_one_loan : ∃ w, play solady sampleConfig (World.initial 1 1000) (longRun.take 4) = some w ∧
    (w.view.circulating : ℚ) + w.storage.savings.feeBudgetCusd ≤ w.view.owedAt w.storage.rate := by
  have hrun : (play solady sampleConfig (World.initial 1 1000) (longRun.take 4)).isSome := by decide +kernel
  obtain ⟨w, hw⟩ := Option.isSome_iff_exists.1 hrun
  exact ⟨w, hw, (cusd_backed solady_exact solady_grows (reach_of_play ⟨1, 1000, .refl⟩ hw)).1⟩

end Tacit
