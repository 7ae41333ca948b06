import Mathlib.Algebra.BigOperators.Group.List.Lemmas
import Mathlib.Algebra.Order.BigOperators.Group.List
import Mathlib.Data.Nat.Cast.Order.Field
import Mathlib.Data.Rat.Cast.Order
import Mathlib.Tactic.FieldSimp
import Mathlib.Tactic.Linarith
import Mathlib.Tactic.Ring
import Tacit.Collateral.Savings
/-!
# The engine's books over a run

`PoolView` is what the pool's proofs hold the calls to: a position is closed once and with its own principal and
snapshot, a receipt carries the shares it was bonded with. `Inv` ties the engine's storage to it. The accrual of a drip
is one floor over all positions and each close pays its own ceiling, so what is in circulation and the budget together
stay below the exact debt (`Backed`).
-/
namespace Tacit

open Prog RewardLedger

namespace CollateralEngine

/-! ## Programs that only read -/

section

variable {σ α β : Type}

/-- `m` leaves the state alone, and its errors are fair. -/
def Reads (m : Prog σ EngineError α) : Prop := ∀ s, wp False m s (fun e _ => Fair e) (fun _ t => t = s)

namespace Reads

variable {m : Prog σ EngineError α} {k : α → Prog σ EngineError β}

theorem pure {a : α} : Reads (Pure.pure a : Prog σ EngineError α) := fun _ => rfl

theorem get : Reads (Prog.get : Prog σ EngineError σ) := fun _ => rfl

theorem check {b : Prop} [Decidable b] {e : EngineError} (he : Fair e) : Reads (Prog.check b e : Prog σ EngineError Unit) := by
  intro s
  rw [wp_check]
  exact ⟨fun _ => he, fun _ => rfl⟩

theorem orThrow {o : Option α} {e : EngineError} (he : Fair e) : Reads (Prog.orThrow o e : Prog σ EngineError α) := by
  intro s
  rw [wp_orThrow]
  exact ⟨fun _ => he, fun _ _ => rfl⟩

theorem bind (h : Reads m) (hk : ∀ a, Reads (k a)) : Reads (m >>= k) := by
  intro s
  rw [wp_bind]
  refine wp_mono (h s) id (fun _ _ he => he) ?_
  rintro a _ rfl
  exact hk a _

theorem ite {b : Prop} [Decidable b] {m' : Prog σ EngineError α} (h : Reads m) (h' : Reads m') :
    Reads (if b then m else m') := by
  by_cases hb : b
  · rw [if_pos hb]
    exact h
  · rw [if_neg hb]
    exact h'

theorem mul {a b : Nat} : Reads (CollateralEngine.mul a b : Prog σ EngineError Nat) := orThrow (by simp [Fair])

theorem add {a b : Nat} : Reads (CollateralEngine.add a b : Prog σ EngineError Nat) := orThrow (by simp [Fair])

theorem pow10 {d : Nat} : Reads (CollateralEngine.pow10 d : Prog σ EngineError Nat) := orThrow (by simp [Fair])

end Reads

end

section

variable {env : Env}

theorem reads_checkDeviation {p d : Nat} {t : Twap} : Reads (checkDeviation p d t) :=
  .bind .get fun _ => .bind (.check (by simp [Fair])) fun _ => .bind .mul fun _ => .bind .pow10 fun _ => .bind .mul fun _ =>
    .bind .pow10 fun _ => .bind (.check (by simp [Fair])) fun _ => .bind .mul fun _ => .bind .mul fun _ =>
      .check (by simp [Fair])

theorem reads_price {feed twap : Address} : Reads (price env feed twap) :=
  .bind .get fun _ => .bind (.check (by simp [Fair])) fun _ => .bind (.orThrow (by simp [Fair])) fun _ =>
    .bind (.check (by simp [Fair])) fun _ => .bind (.check (by simp [Fair])) fun _ => .bind (.check (by simp [Fair])) fun _ =>
      .ite (.bind (.orThrow (by simp [Fair])) fun _ => .bind reads_checkDeviation fun _ => .pure) .pure

theorem reads_btcToUsd {vBtc : Nat} : Reads (btcToUsd env vBtc) :=
  .bind .get fun _ => .bind reads_price fun _ => .bind .mul fun _ => .bind .mul fun _ => .bind .pow10 fun _ =>
    .bind .mul fun _ => .pure

theorem reads_basketUsd_go {cbtc : Word} : ∀ (legs : List ConfidentialPool.CdpLeg) (usd : Nat),
    Reads (basketUsd.go env cbtc legs usd)
  | [], _ => .pure
  | _ :: legs, _ =>
    .bind (.check (by simp [Fair])) fun _ => .bind (.check (by simp [Fair])) fun _ => .bind reads_btcToUsd fun _ =>
      .bind .add fun _ => reads_basketUsd_go legs _

theorem reads_basketUsd {cbtc : Word} {legs : List ConfidentialPool.CdpLeg} : Reads (basketUsd env cbtc legs) :=
  .bind (.check (by simp [Fair])) fun _ => reads_basketUsd_go legs 0

theorem wp_onPolicy_reads {α : Type} {m : PolicyM α} (h : Reads m) {s : Storage} {Q : α → Storage → Prop}
    (hQ : ∀ a, Q a s) : wp False (onPolicy m) s (fun e _ => Fair e) Q := by
  rw [onPolicy, wp_zoom]
  refine wp_mono (h s.policy) id (fun _ _ he => he) ?_
  rintro a _ rfl
  exact hQ a

end

/-! ## The pool's side -/

/-- The open positions (principal and snapshot), the shares of the receipts, and the cUSD in circulation. -/
structure PoolView where
  positions : List (Nat × Nat)
  bonded : Nat → Nat
  circulating : Int

namespace PoolView

def principal (g : PoolView) : Nat := (g.positions.map fun p => p.1).sum

/-- The normalized debt, each position rounded down. -/
def normalized (g : PoolView) : Nat := (g.positions.map fun p => p.1 * ray / p.2).sum

/-- The exact debt of the open positions. -/
def owedAt (g : PoolView) (rate : Nat) : ℚ := (g.positions.map fun p => (p.1 * rate / p.2 : ℚ)).sum

/-- The shares that the legs of a receipt operation carry. -/
def weight (legs : List ConfidentialPool.CdpLeg) : Nat := (legs.map fun l => l.value).sum

/-- The pool's view after an accepted call. -/
def after (g : PoolView) : Call → PoolView
  | .onCdpMint legs debtValue positionLeaf rateSnapshot =>
    if positionLeaf = 1 ∧ debtValue = 0 then { g with bonded := Function.update g.bonded rateSnapshot (weight legs) }
    else if positionLeaf = 1 ∨ positionLeaf = 2 then { g with circulating := g.circulating + debtValue }
    else { g with positions := (debtValue, rateSnapshot) :: g.positions, circulating := g.circulating + debtValue }
  | .onCdpClose principal repaid rateSnapshot _ =>
    if principal = 0 then g
    else { g with positions := g.positions.erase (principal, rateSnapshot), circulating := g.circulating - repaid }
  | .onCdpLiquidate _ principal repaid rateSnapshot =>
    { g with positions := g.positions.erase (principal, rateSnapshot), circulating := g.circulating - repaid }
  | _ => g

/-- The calls that the pool makes: a harvest and an unbond carry the shares of their receipt, a close and a liquidation
an open position. -/
def Admits (g : PoolView) : Call → Prop
  | .onCdpMint legs debtValue positionLeaf rateSnapshot =>
    positionLeaf = 1 → debtValue ≠ 0 → weight legs = g.bonded rateSnapshot
  | .onCdpClose principal _ rateSnapshot legs =>
    if principal = 0 then weight legs = g.bonded rateSnapshot else (principal, rateSnapshot) ∈ g.positions
  | .onCdpLiquidate _ principal _ rateSnapshot => (principal, rateSnapshot) ∈ g.positions
  | _ => True

theorem sum_of_mem {α : Type} [AddCommMonoid α] {l : List (Nat × Nat)} {p : Nat × Nat} (h : p ∈ l) (f : Nat × Nat → α) :
    (l.map f).sum = f p + ((l.erase p).map f).sum := by
  rw [((List.perm_cons_erase h).map f).sum_eq, List.map_cons, List.sum_cons]

/-- The exact debt per unit of rate. -/
def units (g : PoolView) : ℚ := (g.positions.map fun p => (p.1 / p.2 : ℚ)).sum

theorem owedAt_eq (g : PoolView) (rate : Nat) : g.owedAt rate = g.units * rate := by
  rw [owedAt, units, ← List.sum_map_mul_right]
  congr 1
  refine List.map_congr_left fun p _ => ?_
  ring

theorem normalized_le (g : PoolView) : (g.normalized : ℚ) ≤ g.units * ray := by
  rw [normalized, units, ← List.sum_map_mul_right, Nat.cast_list_sum, List.map_map]
  refine List.sum_le_sum fun p _ => ?_
  have h : ((p.1 * ray / p.2 : ℕ) : ℚ) ≤ ((p.1 * ray : ℕ) : ℚ) / p.2 := Nat.cast_div_le
  rw [Nat.cast_mul] at h
  calc ((p.1 * ray / p.2 : ℕ) : ℚ) ≤ (p.1 : ℚ) * ray / p.2 := h
    _ = p.1 / p.2 * ray := by ring

theorem units_nonneg (g : PoolView) : 0 ≤ g.units := by
  refine List.sum_nonneg fun q hq => ?_
  obtain ⟨p, -, rfl⟩ := List.mem_map.1 hq
  exact div_nonneg (Nat.cast_nonneg _) (Nat.cast_nonneg _)

end PoolView

/-! ## The invariant -/

/-- A factor above one does not compound to less than one. -/
def FixedPointMath.Grows (M : FixedPointMath) : Prop := ∀ x n z, ray < x → M.rpow x n ray = some z → ray ≤ z

/-- What is in circulation, with what may still be minted against the budget, is owed by the open positions. -/
structure Backed (g : PoolView) (s : Storage) : Prop where
  rate_ge : ray ≤ s.rate
  snapshot : ∀ p ∈ g.positions, ray ≤ p.2 ∧ p.2 ≤ s.rate
  covered : (g.circulating : ℚ) + s.savings.feeBudgetCusd ≤ g.owedAt s.rate

structure Inv (M : FixedPointMath) (now : Nat) (g : PoolView) (s : Storage) (L : RewardLedger Nat) : Prop where
  savings : s.savings.Holds L
  shares : L.shares = g.bonded
  fresh : s.savingsBonded = true → now ≤ s.lastDrip
  outstanding : s.outstandingCusd = g.principal
  normalized : s.normalizedDebtRay = g.normalized
  backed : M.Grows → Backed g s

variable {M : FixedPointMath} {env : Env} {cfg : Config} {now : Nat} {g : PoolView} {s t : Storage} {L : RewardLedger Nat}

/-! ## The accumulator -/

/-- What a drip leaves as it was. -/
structure Dripped (M : FixedPointMath) (env : Env) (s t : Storage) : Prop where
  time_le : env.now ≤ t.lastDrip
  pool_eq : t.pool = s.pool
  policy_eq : t.policy = s.policy
  pending_eq : t.savings.pendingSurplusDraw = s.savings.pendingSurplusDraw
  rate_le : M.Grows → s.rate ≤ t.rate

/-- The interest booked on the aggregate is within what the positions owe more. -/
theorem interest_le (g : PoolView) {rateOld rateNew : Nat} (h : rateOld ≤ rateNew) :
    ((g.normalized * (rateNew - rateOld) / ray : ℕ) : ℚ) ≤ g.owedAt rateNew - g.owedAt rateOld := by
  have hray : (0 : ℚ) < ray := by
    rw [Nat.cast_pos]
    decide
  have hdelta : (0 : ℚ) ≤ ((rateNew - rateOld : ℕ) : ℚ) := Nat.cast_nonneg _
  have hfloor : ((g.normalized * (rateNew - rateOld) / ray : ℕ) : ℚ) ≤
      ((g.normalized * (rateNew - rateOld) : ℕ) : ℚ) / ray := Nat.cast_div_le
  calc ((g.normalized * (rateNew - rateOld) / ray : ℕ) : ℚ)
      ≤ (g.normalized : ℚ) * ((rateNew - rateOld : ℕ) : ℚ) / ray := by rwa [Nat.cast_mul] at hfloor
    _ ≤ g.units * ray * ((rateNew - rateOld : ℕ) : ℚ) / ray :=
        div_le_div_of_nonneg_right (mul_le_mul_of_nonneg_right g.normalized_le hdelta) hray.le
    _ = g.units * ((rateNew - rateOld : ℕ) : ℚ) := by
        rw [mul_right_comm, mul_div_cancel_right₀ _ hray.ne']
    _ = g.owedAt rateNew - g.owedAt rateOld := by
        rw [Nat.cast_sub h, g.owedAt_eq, g.owedAt_eq]
        ring

theorem owedAt_mono (g : PoolView) {rateOld rateNew : Nat} (h : rateOld ≤ rateNew) : g.owedAt rateOld ≤ g.owedAt rateNew := by
  rw [g.owedAt_eq, g.owedAt_eq]
  exact mul_le_mul_of_nonneg_left (Nat.cast_le.2 h) g.units_nonneg

/-- A factor of at least one keeps the rate from falling. -/
theorem rate_le_of_factor {factor rate : Nat} (h : ray ≤ factor) : rate ≤ factor * rate / ray := by
  rw [Nat.le_div_iff_mul_le (by decide), Nat.mul_comm]
  exact Nat.mul_le_mul_right _ h


theorem accrueInterest_spec (hM : M.Exact) (h : Inv M now g s L) (hbonded : s.savingsBonded = false) {rateNew last : Nat}
    (hgrow : M.Grows → s.rate ≤ rateNew) (hlast : now ≤ last) :
    wp False (accrueInterest M s.rate rateNew) { s with rate := rateNew, lastDrip := last } (fun e _ => Overflow e)
      (fun _ t => (∃ n, Inv M now g t (L.raise n)) ∧ t.lastDrip = last ∧ t.pool = s.pool ∧ t.policy = s.policy ∧
        t.savings.pendingSurplusDraw = s.savings.pendingSurplusDraw ∧ t.rate = rateNew) := by
  have hold : M.Grows → Backed g { s with rate := rateNew, lastDrip := last } := by
    intro hG
    have hb := h.backed hG
    have hr := hgrow hG
    refine ⟨hb.rate_ge.trans hr, fun p hp => ?_, hb.covered.trans (owedAt_mono g hr)⟩
    exact ⟨(hb.snapshot p hp).1, (hb.snapshot p hp).2.trans hr⟩
  rw [accrueInterest, wp_bind, wp_get]
  by_cases hcond : s.rate < rateNew ∧ s.normalizedDebtRay ≠ 0
  · rw [if_pos hcond, wp_bind]
    refine wp_fullMulDiv hM (by simp [Overflow]) ?_
    rw [onSavings, wp_zoom]
    show wp False (accrueFee M s.savingsBonded _) s.savings _ _
    rw [hbonded]
    refine wp_mono (accrueFee_spec hM h.savings) id (fun _ _ he => he) ?_
    rintro _ u ⟨n, hu, hpending, hbudget⟩
    refine ⟨⟨n, { hu with } , h.shares, fun _ => hlast, h.outstanding, h.normalized, fun hG => ?_⟩, rfl, rfl, rfl, hpending, rfl⟩
    have hb := hold hG
    refine ⟨hb.rate_ge, hb.snapshot, ?_⟩
    have hfee := interest_le g hcond.1.le
    have hcov := (h.backed hG).covered
    rw [← h.normalized] at hfee
    show (g.circulating : ℚ) + (u.feeBudgetCusd : ℚ) ≤ g.owedAt rateNew
    rw [hbudget, Nat.cast_add]
    linarith
  · rw [if_neg hcond, wp_pure]
    exact ⟨⟨0, h.savings, h.shares, fun _ => hlast, h.outstanding, h.normalized, hold⟩, rfl, rfl, rfl, rfl, rfl⟩

/-- A drip hands interest to the ledger and the surplus; the assertion about bonds cannot fire. -/
theorem drip_spec (hM : M.Exact) (h : Inv M env.now g s L) :
    wp False (drip M env) s (fun e _ => Overflow e) (fun _ t => (∃ n, Inv M env.now g t (L.raise n)) ∧ Dripped M env s t) := by
  rw [drip, wp_bind, wp_get]
  by_cases hle : env.now ≤ s.lastDrip
  · rw [if_pos hle, wp_pure]
    exact ⟨⟨0, h⟩, hle, rfl, rfl, rfl, fun _ => Nat.le_refl _⟩
  · rw [if_neg hle]
    have hbonded : s.savingsBonded = false := by
      rw [← Bool.not_eq_true]
      exact fun hb => hle (h.fresh hb)
    by_cases hfee : s.stabilityFeePerSecond ≤ ray
    · rw [if_pos hfee, wp_modify]
      refine ⟨⟨0, { h with fresh := fun _ => Nat.le_refl _, backed := fun hG => ?_ }⟩, Nat.le_refl _, rfl, rfl, rfl, fun _ => Nat.le_refl _⟩
      exact { h.backed hG with }
    · rw [if_neg hfee, wp_bind, wp_orThrow]
      refine ⟨fun _ => by simp [Overflow], fun factor hfactor => ?_⟩
      rw [wp_bind]
      refine wp_fullMulDiv hM (by simp [Overflow]) ?_
      have hgrow : M.Grows → s.rate ≤ factor * s.rate / ray := fun hG =>
        rate_le_of_factor (hG _ _ _ (Nat.lt_of_not_le hfee) hfactor)
      generalize factor * s.rate / ray = rateNew at hgrow
      rw [wp_bind, wp_modify]
      refine wp_mono (accrueInterest_spec hM h hbonded hgrow (Nat.le_refl env.now)) id (fun _ _ he => he) ?_
      rintro _ t ⟨hinv, hlast, hpool, hpolicy, hpending, hrate⟩
      exact ⟨hinv, hlast.ge, hpool, hpolicy, hpending, fun hG => (hgrow hG).trans hrate.ge⟩

/-- The accrued debt covers the exact one. -/
theorem owed_spec (hM : M.Exact) {principal snap : Nat} :
    wp False (owed M principal snap) s (fun e _ => Fair e)
      (fun o t => t = s ∧ ray ≤ snap ∧ snap ≤ s.rate ∧ principal * s.rate ≤ o * snap) := by
  rw [owed, wp_bind, wp_get, wp_bind, wp_check]
  refine ⟨fun _ => by simp [Fair], fun hsnap => ?_⟩
  rw [not_or, Nat.not_lt, Nat.not_lt] at hsnap
  by_cases hle : s.rate ≤ snap
  · rw [if_pos hle, wp_pure]
    exact ⟨rfl, hsnap.1, hsnap.2, Nat.mul_le_mul_left _ hle⟩
  · rw [if_neg hle, wp_orThrow]
    exact ⟨fun _ => by simp [Fair], fun o ho => ⟨rfl, hsnap.1, hsnap.2, hM.le_fullMulDivUp ho⟩⟩

/-! ## The callbacks -/

/-- The invariant holds again, the pending draw is the one before, and the rate has not fallen. -/
structure Keeps (M : FixedPointMath) (now : Nat) (g : PoolView) (s t : Storage) : Prop where
  inv : ∃ L, Inv M now g t L
  pending_eq : t.savings.pendingSurplusDraw = s.savings.pendingSurplusDraw
  rate_le : M.Grows → s.rate ≤ t.rate

theorem Keeps.of_eq {u : Storage} (h : ∃ L, Inv M now g u L)
    (hp : u.savings.pendingSurplusDraw = s.savings.pendingSurplusDraw) (hr : u.rate = s.rate) : Keeps M now g s u :=
  ⟨h, hp, fun _ => hr.ge⟩

theorem savingsReceipt_spec (hM : M.Exact) (h : Inv M now g s L) (hlast : now ≤ s.lastDrip)
    {legs : List ConfidentialPool.CdpLeg} {reward receipt : Nat} (hg : g.Admits (.onCdpMint legs reward 1 receipt)) :
    wp False (savingsReceipt M cfg legs reward receipt) s (fun e _ => Fair e)
      (fun _ t => Keeps M now (g.after (.onCdpMint legs reward 1 receipt)) s t) := by
  unfold savingsReceipt
  split
  case h_2 =>
    rw [wp_throw]
    simp [Fair]
  case h_1 l =>
    have hweight : PoolView.weight [l] = l.value := by simp [PoolView.weight]
    rw [wp_bind, wp_check]
    refine ⟨fun _ => by simp [Fair], fun _ => ?_⟩
    rw [wp_bind, wp_check]
    refine ⟨fun _ => by simp [Fair], fun _ => ?_⟩
    by_cases h0 : reward = 0
    · have hafter : g.after (.onCdpMint [l] reward 1 receipt) =
          { g with bonded := Function.update g.bonded receipt l.value } := by
        simp [PoolView.after, h0, hweight]
      rw [if_pos h0, wp_bind, onSavings, wp_zoom, hafter]
      refine wp_mono (bondReceipt_spec h.savings) id (fun _ _ he => he) ?_
      rintro _ u ⟨hu, hpending, hbudget⟩
      rw [wp_modify]
      refine Keeps.of_eq ⟨_, { hu with }, ?_, fun _ => hlast, h.outstanding, h.normalized, fun hG => ?_⟩ hpending rfl
      · show Function.update L.shares receipt l.value = _
        rw [h.shares]
      · have hb := h.backed hG
        refine { hb with covered := ?_ }
        show (g.circulating : ℚ) + (u.feeBudgetCusd : ℚ) ≤ _
        rw [hbudget]
        exact hb.covered
    · have hafter : g.after (.onCdpMint [l] reward 1 receipt) = { g with circulating := g.circulating + reward } := by
        simp [PoolView.after, h0]
      have hshares : l.value = L.shares receipt := by
        rw [h.shares, ← hg rfl h0, hweight]
      rw [if_neg h0, onSavings, wp_zoom, hafter, hshares]
      refine wp_mono (harvestReceipt_spec hM h.savings) id (fun _ _ he => he) ?_
      rintro _ u ⟨hu, hpending, hbudget⟩
      refine Keeps.of_eq ⟨_, hu, h.shares, h.fresh, h.outstanding, h.normalized, fun hG => ?_⟩ hpending rfl
      have hb := h.backed hG
      refine { hb with covered := ?_ }
      have hcov := hb.covered
      rw [← hbudget, Nat.cast_add] at hcov
      show ((g.circulating + reward : ℤ) : ℚ) + (u.feeBudgetCusd : ℚ) ≤ g.owedAt s.rate
      push_cast
      linarith

/-- The debt a new position adds is within its exact debt. -/
theorem debtAdded_le {debtValue snap rate : Nat} :
    ((debtValue * ray / snap * rate / ray : ℕ) : ℚ) ≤ debtValue * rate / snap := by
  have hray : (0 : ℚ) < ray := by
    rw [Nat.cast_pos]
    decide
  have hrate : (0 : ℚ) ≤ rate := Nat.cast_nonneg _
  have hart : ((debtValue * ray / snap : ℕ) : ℚ) ≤ (debtValue : ℚ) * ray / snap := by
    have := Nat.cast_div_le (α := ℚ) (m := debtValue * ray) (n := snap)
    rwa [Nat.cast_mul] at this
  have hfloor : ((debtValue * ray / snap * rate / ray : ℕ) : ℚ) ≤ ((debtValue * ray / snap : ℕ) : ℚ) * rate / ray := by
    have := Nat.cast_div_le (α := ℚ) (m := debtValue * ray / snap * rate) (n := ray)
    rwa [Nat.cast_mul] at this
  calc ((debtValue * ray / snap * rate / ray : ℕ) : ℚ) ≤ ((debtValue * ray / snap : ℕ) : ℚ) * rate / ray := hfloor
    _ ≤ (debtValue : ℚ) * ray / snap * rate / ray :=
        div_le_div_of_nonneg_right (mul_le_mul_of_nonneg_right hart hrate) hray.le
    _ = debtValue * rate / snap := by
        field_simp

/-- A principal is within its exact debt. -/
theorem principal_le_debt {debtValue snap rate : Nat} (hpos : 0 < snap) (h : snap ≤ rate) :
    (debtValue : ℚ) ≤ debtValue * rate / snap := by
  rw [le_div_iff₀ (Nat.cast_pos.2 hpos)]
  exact mul_le_mul_of_nonneg_left (Nat.cast_le.2 h) (Nat.cast_nonneg _)

theorem ray_pos : 0 < ray := by decide

/-- A new position, with the interest of a stale snapshot booked. -/
theorem Inv.mint (h : Inv M now g s L) {debtValue snap debtAdded : Nat} {u : Savings} (hsnap : ray ≤ snap) (hrate : snap ≤ s.rate)
    (hdebt : debtAdded = debtValue * ray / snap * s.rate / ray) (hu : u.Holds L)
    (hbudget : u.feeBudgetCusd = s.savings.feeBudgetCusd + (debtAdded - debtValue)) :
    Inv M now { g with positions := (debtValue, snap) :: g.positions, circulating := g.circulating + debtValue }
      { s with
        outstandingCusd := s.outstandingCusd + debtValue
        normalizedDebtRay := s.normalizedDebtRay + debtValue * ray / snap
        savings := u } L where
  savings := hu
  shares := h.shares
  fresh := h.fresh
  outstanding := by
    show s.outstandingCusd + debtValue = debtValue + g.principal
    rw [h.outstanding, Nat.add_comm]
  normalized := by
    show s.normalizedDebtRay + debtValue * ray / snap = debtValue * ray / snap + g.normalized
    rw [h.normalized, Nat.add_comm]
  backed hG := by
    have hb := h.backed hG
    refine ⟨hb.rate_ge, fun p hp => ?_, ?_⟩
    · rcases List.mem_cons.1 hp with rfl | hp
      · exact ⟨hsnap, hrate⟩
      · exact hb.snapshot p hp
    · have hcov := hb.covered
      have hprincipal : (debtValue : ℚ) ≤ debtValue * s.rate / snap := principal_le_debt (ray_pos.trans_le hsnap) hrate
      have hadded : (debtAdded : ℚ) ≤ debtValue * s.rate / snap := by
        rw [hdebt]
        exact debtAdded_le
      have hgap : (debtValue : ℚ) + ((debtAdded - debtValue : ℕ) : ℚ) ≤ debtValue * s.rate / snap := by
        rcases le_total debtValue debtAdded with hle | hle
        · rw [Nat.cast_sub hle]
          linarith
        · rw [Nat.sub_eq_zero_of_le hle]
          simpa using hprincipal
      show ((g.circulating + debtValue : ℤ) : ℚ) + (u.feeBudgetCusd : ℚ) ≤ debtValue * s.rate / snap + g.owedAt s.rate
      rw [hbudget]
      push_cast
      linarith

theorem mintPosition_spec (hM : M.Exact) (h : Inv M now g s L) {legs : List ConfidentialPool.CdpLeg} {debtValue snap : Nat} :
    wp False (mintPosition M env cfg legs debtValue snap) s (fun e _ => Fair e)
      (fun _ t => Keeps M now { g with
        positions := (debtValue, snap) :: g.positions, circulating := g.circulating + debtValue } s t) := by
  rw [mintPosition, wp_bind, wp_check]
  refine ⟨fun _ => by simp [Fair], fun _ => ?_⟩
  rw [wp_bind, wp_get, wp_bind, wp_check]
  refine ⟨fun _ => by simp [Fair], fun hsnap => ?_⟩
  rw [not_or, Nat.not_lt, Nat.not_lt] at hsnap
  rw [wp_bind, wp_add]
  refine ⟨fun _ => by simp [Fair], fun _ => ?_⟩
  rw [wp_bind, wp_check]
  refine ⟨fun _ => by simp [Fair], fun _ => ?_⟩
  rw [wp_bind]
  refine wp_onPolicy_reads reads_basketUsd fun collateralUsd => ?_
  rw [wp_bind]
  refine wp_mono (owed_spec hM) id (fun _ _ he => he) ?_
  rintro owedNow s ⟨rfl, -, -, -⟩
  rw [wp_bind, wp_mul]
  refine ⟨fun _ => by simp [Fair], fun _ => ?_⟩
  rw [wp_bind, wp_mul]
  refine ⟨fun _ => by simp [Fair], fun _ => ?_⟩
  rw [wp_bind, wp_check]
  refine ⟨fun _ => by simp [Fair], fun _ => ?_⟩
  rw [wp_bind, wp_add]
  refine ⟨fun _ => by simp [Fair], fun _ => ?_⟩
  rw [wp_bind]
  refine wp_fullMulDiv hM (by simp [Fair]) ?_
  rw [wp_bind, wp_check]
  refine ⟨fun _ => by simp [Fair], fun _ => ?_⟩
  rw [wp_bind, wp_add]
  refine ⟨fun _ => by simp [Fair], fun _ => ?_⟩
  rw [wp_bind, wp_modify, wp_bind]
  refine wp_fullMulDiv hM (by simp [Fair]) ?_
  by_cases hgap : debtValue < debtValue * ray / snap * s.rate / ray
  · rw [if_pos hgap, onSavings, wp_zoom]
    refine wp_mono (bookSurplusFee_spec h.savings) id (fun _ _ he => he) ?_
    rintro _ u ⟨hu, hpending, hbudget⟩
    exact Keeps.of_eq ⟨L, h.mint hsnap.1 hsnap.2 rfl hu hbudget⟩ hpending rfl
  · rw [if_neg hgap, wp_pure]
    refine Keeps.of_eq ⟨L, h.mint hsnap.1 hsnap.2 rfl h.savings ?_⟩ rfl rfl
    rw [Nat.sub_eq_zero_of_le (Nat.not_lt.1 hgap), Nat.add_zero]

/-- An open position leaves, and the burn above its debt is booked. -/
theorem Inv.retire (h : Inv M now g s L) {principal snap owed repaid : Nat} {u : Savings}
    (hmem : (principal, snap) ∈ g.positions) (hsnap : ray ≤ snap) (howed : principal * s.rate ≤ owed * snap)
    (hrepaid : owed ≤ repaid) (hu : u.Holds L) (hbudget : u.feeBudgetCusd = s.savings.feeBudgetCusd + (repaid - owed)) :
    Inv M now { g with positions := g.positions.erase (principal, snap), circulating := g.circulating - repaid }
      { s with
        outstandingCusd := s.outstandingCusd - principal
        normalizedDebtRay := s.normalizedDebtRay - principal * ray / snap
        savings := u } L where
  savings := hu
  shares := h.shares
  fresh := h.fresh
  outstanding := by
    have hsum := PoolView.sum_of_mem hmem fun p => p.1
    have hout := h.outstanding
    rw [PoolView.principal, hsum] at hout
    show s.outstandingCusd - principal = ((g.positions.erase (principal, snap)).map fun p => p.1).sum
    omega
  normalized := by
    have hsum := PoolView.sum_of_mem hmem fun p => p.1 * ray / p.2
    have hnorm := h.normalized
    rw [PoolView.normalized, hsum] at hnorm
    show s.normalizedDebtRay - principal * ray / snap = ((g.positions.erase (principal, snap)).map fun p => p.1 * ray / p.2).sum
    rw [hnorm, Nat.add_sub_cancel_left]
  backed hG := by
    have hb := h.backed hG
    refine ⟨hb.rate_ge, fun p hp => hb.snapshot p (List.mem_of_mem_erase hp), ?_⟩
    have hcov := hb.covered
    have hsum := PoolView.sum_of_mem hmem fun p => (p.1 * s.rate / p.2 : ℚ)
    rw [PoolView.owedAt, hsum] at hcov
    have hexact : (principal * s.rate / snap : ℚ) ≤ owed := by
      rw [div_le_iff₀ (Nat.cast_pos.2 (ray_pos.trans_le hsnap))]
      exact_mod_cast howed
    show ((g.circulating - repaid : ℤ) : ℚ) + (u.feeBudgetCusd : ℚ) ≤
      ((g.positions.erase (principal, snap)).map fun p => (p.1 * s.rate / p.2 : ℚ)).sum
    rw [hbudget, Nat.cast_add, Nat.cast_sub hrepaid]
    push_cast
    linarith

theorem normalized_mem_le (h : Inv M now g s L) {principal snap : Nat} (hmem : (principal, snap) ∈ g.positions) :
    principal * ray / snap ≤ s.normalizedDebtRay := by
  rw [h.normalized, PoolView.normalized, PoolView.sum_of_mem hmem]
  exact Nat.le_add_right _ _

theorem retirePosition_spec (hM : M.Exact) (h : Inv M now g s L) {principal snap owed repaid : Nat}
    (hmem : (principal, snap) ∈ g.positions) (hsnap : ray ≤ snap) (howed : principal * s.rate ≤ owed * snap)
    (hrepaid : owed ≤ repaid) :
    wp False (retirePosition M principal snap owed repaid) { s with outstandingCusd := s.outstandingCusd - principal }
      (fun e _ => Fair e) (fun _ t => Keeps M now { g with
        positions := g.positions.erase (principal, snap), circulating := g.circulating - repaid } s t) := by
  rw [retirePosition, wp_bind]
  refine wp_fullMulDiv hM (by simp [Fair]) ?_
  rw [wp_bind, wp_get, wp_bind, wp_sub (normalized_mem_le h hmem), wp_bind, wp_modify, wp_bind, wp_sub hrepaid, onSavings,
    wp_zoom]
  refine wp_mono (bookSurplusFee_spec h.savings) id (fun _ _ he => he) ?_
  rintro _ u ⟨hu, hpending, hbudget⟩
  exact Keeps.of_eq ⟨L, h.retire hmem hsnap howed hrepaid hu hbudget⟩ hpending rfl

theorem checkRepaid_spec {owed repaid : Nat} :
    wp False (checkRepaid owed repaid) s (fun e _ => Fair e) (fun _ t => t = s ∧ owed ≤ repaid) := by
  rw [checkRepaid, wp_bind, wp_check]
  refine ⟨fun _ => by simp [Fair], fun hlt => ?_⟩
  rw [wp_bind, wp_add]
  refine ⟨fun _ => by simp [Fair], fun _ => ?_⟩
  rw [wp_check]
  exact ⟨fun _ => by simp [Fair], fun _ => ⟨rfl, Nat.not_lt.1 hlt⟩⟩

theorem closePosition_spec (hM : M.Exact) (h : Inv M now g s L) {principal repaid snap : Nat}
    (hmem : (principal, snap) ∈ g.positions) :
    wp False (closePosition M principal repaid snap) s (fun e _ => Fair e) (fun _ t => Keeps M now { g with
      positions := g.positions.erase (principal, snap), circulating := g.circulating - repaid } s t) := by
  rw [closePosition, wp_bind, wp_get, wp_bind, wp_check]
  refine ⟨fun _ => by simp [Fair], fun _ => ?_⟩
  rw [wp_bind]
  refine wp_mono (owed_spec hM) id (fun _ _ he => he) ?_
  rintro owed s ⟨rfl, hsnap, -, howed⟩
  rw [wp_bind]
  refine wp_mono checkRepaid_spec id (fun _ _ he => he) ?_
  rintro _ s ⟨rfl, hrepaid⟩
  rw [wp_bind, wp_modify]
  exact retirePosition_spec hM h hmem hsnap howed hrepaid

/-- A drip and then a callback. -/
theorem Keeps.of_dripped {g' : PoolView} {u : Storage} (hd : Dripped M env s t) (h : Keeps M now g' t u) : Keeps M now g' s u :=
  ⟨h.inv, h.pending_eq.trans hd.pending_eq, fun hG => (hd.rate_le hG).trans (h.rate_le hG)⟩

theorem onCdpClose_spec (hM : M.Exact) (h : Inv M env.now g s L) {principal repaid snap : Nat}
    {legs : List ConfidentialPool.CdpLeg} (hg : g.Admits (.onCdpClose principal repaid snap legs)) :
    wp False (onCdpClose M env cfg principal repaid snap legs) s (fun e _ => Fair e)
      (fun _ t => Keeps M env.now (g.after (.onCdpClose principal repaid snap legs)) s t) := by
  rw [onCdpClose, wp_bind, wp_get, wp_bind, wp_check]
  refine ⟨fun _ => by simp [Fair], fun _ => ?_⟩
  rw [wp_bind]
  refine wp_mono (drip_spec hM h) id (fun _ _ he => he.fair) ?_
  rintro _ t ⟨⟨n, ht⟩, hd⟩
  simp only [PoolView.Admits, PoolView.after] at hg ⊢
  by_cases h0 : principal = 0
  · rw [if_pos h0] at hg ⊢
    rw [if_pos h0, wp_bind, wp_check]
    refine ⟨fun _ => by simp [Fair], fun _ => ?_⟩
    have hshares : ∀ l, legs = [l] → l.value = (L.raise n).shares snap := by
      rintro l rfl
      rw [ht.shares, ← hg]
      simp [PoolView.weight]
    rw [onSavings, wp_zoom]
    refine wp_mono (unbondReceipt_spec ht.savings hshares) id (fun _ _ he => he) ?_
    rintro _ u ⟨hu, hpending, hbudget⟩
    refine Keeps.of_dripped hd (Keeps.of_eq ⟨_, hu, ht.shares, ht.fresh, ht.outstanding, ht.normalized, fun hG => ?_⟩ hpending rfl)
    have hb := ht.backed hG
    refine { hb with covered := ?_ }
    show (g.circulating : ℚ) + (u.feeBudgetCusd : ℚ) ≤ _
    rw [hbudget]
    exact hb.covered
  · rw [if_neg h0] at hg ⊢
    rw [if_neg h0]
    refine wp_mono (closePosition_spec hM ht hg) id (fun _ _ he => he) ?_
    exact fun _ u hu => Keeps.of_dripped hd hu

theorem onCdpLiquidate_spec (hM : M.Exact) (h : Inv M env.now g s L) {principal repaid snap : Nat}
    {legs : List ConfidentialPool.CdpLeg} (hg : (principal, snap) ∈ g.positions) :
    wp False (onCdpLiquidate M env cfg legs principal repaid snap) s (fun e _ => Fair e)
      (fun _ t => Keeps M env.now { g with
        positions := g.positions.erase (principal, snap), circulating := g.circulating - repaid } s t) := by
  rw [onCdpLiquidate, wp_bind, wp_get, wp_bind, wp_check]
  refine ⟨fun _ => by simp [Fair], fun _ => ?_⟩
  rw [wp_bind, wp_check]
  refine ⟨fun _ => by simp [Fair], fun _ => ?_⟩
  rw [wp_bind, wp_check]
  refine ⟨fun _ => by simp [Fair], fun _ => ?_⟩
  rw [wp_bind, wp_add]
  refine ⟨fun _ => by simp [Fair], fun _ => ?_⟩
  rw [wp_bind, wp_check]
  refine ⟨fun _ => by simp [Fair], fun _ => ?_⟩
  rw [wp_bind]
  refine wp_mono (drip_spec hM h) id (fun _ _ he => he.fair) ?_
  rintro _ t ⟨⟨n, ht⟩, hd⟩
  rw [wp_bind]
  refine wp_mono (owed_spec hM) id (fun _ _ he => he) ?_
  rintro owed t ⟨rfl, hsnap, -, howed⟩
  rw [wp_bind]
  refine wp_mono checkRepaid_spec id (fun _ _ he => he) ?_
  rintro _ t ⟨rfl, hrepaid⟩
  rw [wp_bind]
  refine wp_onPolicy_reads reads_basketUsd fun collateralUsd => ?_
  rw [wp_bind, wp_mul]
  refine ⟨fun _ => by simp [Fair], fun _ => ?_⟩
  rw [wp_bind, wp_mul]
  refine ⟨fun _ => by simp [Fair], fun _ => ?_⟩
  rw [wp_bind, wp_check]
  refine ⟨fun _ => by simp [Fair], fun _ => ?_⟩
  rw [wp_bind, wp_modify]
  refine wp_mono (retirePosition_spec hM ht hg hsnap howed hrepaid) id (fun _ _ he => he) ?_
  exact fun _ u hu => Keeps.of_dripped hd hu

theorem onCdpTopup_spec (hM : M.Exact) (h : Inv M env.now g s L) {oldLegs newLegs : List ConfidentialPool.CdpLeg}
    {debtValue snap leaf : Nat} : wp False (onCdpTopup M env cfg oldLegs newLegs debtValue snap leaf) s
      (fun e _ => Fair e) (fun _ t => Keeps M env.now g s t) := by
  rw [onCdpTopup, wp_bind, wp_get, wp_bind, wp_check]
  refine ⟨fun _ => by simp [Fair], fun _ => ?_⟩
  rw [wp_bind, wp_check]
  refine ⟨fun _ => by simp [Fair], fun _ => ?_⟩
  rw [wp_bind, wp_check]
  refine ⟨fun _ => by simp [Fair], fun _ => ?_⟩
  rw [wp_bind]
  refine wp_mono (drip_spec hM h) id (fun _ _ he => he.fair) ?_
  rintro _ t ⟨⟨n, ht⟩, hd⟩
  rw [wp_bind]
  refine wp_mono (owed_spec hM) id (fun _ _ he => he) ?_
  rintro owed t ⟨rfl, -, -, -⟩
  rw [wp_bind]
  refine wp_onPolicy_reads reads_basketUsd fun oldUsd => ?_
  rw [wp_bind]
  refine wp_onPolicy_reads reads_basketUsd fun newUsd => ?_
  rw [wp_bind, wp_check]
  refine ⟨fun _ => by simp [Fair], fun _ => ?_⟩
  rw [wp_bind, wp_mul]
  refine ⟨fun _ => by simp [Fair], fun _ => ?_⟩
  rw [wp_bind, wp_mul]
  refine ⟨fun _ => by simp [Fair], fun _ => ?_⟩
  rw [wp_check]
  exact ⟨fun _ => by simp [Fair], fun _ => ⟨⟨_, ht⟩, hd.pending_eq, hd.rate_le⟩⟩

/-- The calls that may change the pending draw: the surplus sentinel and a new authorization. -/
def Call.Draws : Call → Prop
  | .onCdpMint _ _ positionLeaf _ => positionLeaf = 2
  | .authorizeSurplusDraw _ _ => True
  | _ => False

theorem onCdpMint_spec (hM : M.Exact) (h : Inv M env.now g s L) {legs : List ConfidentialPool.CdpLeg}
    {debtValue leaf snap : Nat} (hg : g.Admits (.onCdpMint legs debtValue leaf snap)) :
    wp False (onCdpMint M env cfg legs debtValue leaf snap) s (fun e _ => Fair e)
      (fun _ t => (∃ L', Inv M env.now (g.after (.onCdpMint legs debtValue leaf snap)) t L') ∧
        (leaf ≠ 2 → t.savings.pendingSurplusDraw = s.savings.pendingSurplusDraw) ∧ (M.Grows → s.rate ≤ t.rate)) := by
  rw [onCdpMint, wp_bind, wp_get, wp_bind, wp_check]
  refine ⟨fun _ => by simp [Fair], fun _ => ?_⟩
  rw [wp_bind]
  refine wp_mono (drip_spec hM h) id (fun _ _ he => he.fair) ?_
  rintro _ t ⟨⟨n, ht⟩, hd⟩
  by_cases h1 : leaf = 1
  · subst h1
    rw [if_pos rfl]
    refine wp_mono (savingsReceipt_spec hM ht hd.time_le hg) id (fun _ _ he => he) ?_
    rintro _ u hu
    exact ⟨hu.inv, fun _ => hu.pending_eq.trans hd.pending_eq, fun hG => (hd.rate_le hG).trans (hu.rate_le hG)⟩
  · rw [if_neg h1]
    by_cases h2 : leaf = 2
    · subst h2
      have hafter : g.after (.onCdpMint legs debtValue 2 snap) = { g with circulating := g.circulating + debtValue } := by
        simp [PoolView.after]
      rw [if_pos rfl, onSavings, wp_zoom, hafter]
      refine wp_mono (surplusDraw_spec ht.savings) id (fun _ _ he => he) ?_
      rintro _ u ⟨hu, hbudget⟩
      refine ⟨⟨_, hu, ht.shares, ht.fresh, ht.outstanding, ht.normalized, fun hG => ?_⟩, fun hne => absurd rfl hne, hd.rate_le⟩
      have hb := ht.backed hG
      have hcov := hb.covered
      rw [← hbudget, Nat.cast_add] at hcov
      refine { hb with covered := ?_ }
      show ((g.circulating + debtValue : ℤ) : ℚ) + (u.feeBudgetCusd : ℚ) ≤ g.owedAt t.rate
      push_cast
      linarith
    · have hafter : g.after (.onCdpMint legs debtValue leaf snap) = { g with
          positions := (debtValue, snap) :: g.positions, circulating := g.circulating + debtValue } := by
        simp [PoolView.after, h1, h2]
      rw [if_neg h2, wp_bind, wp_check, hafter]
      refine ⟨fun _ => by simp [Fair], fun _ => ?_⟩
      refine wp_mono (mintPosition_spec hM ht) id (fun _ _ he => he) ?_
      rintro _ u hu
      exact ⟨hu.inv, fun _ => hu.pending_eq.trans hd.pending_eq, fun hG => (hd.rate_le hG).trans (hu.rate_le hG)⟩

theorem wp_onlyOwner {σ : Type} {s : σ} {Q : Unit → σ → Prop} (hQ : Q () s) :
    wp False (onlyOwner env) s (fun e _ => Fair e) Q := by
  rw [onlyOwner, wp_check]
  exact ⟨fun _ => by simp [Fair], fun _ => hQ⟩

theorem setStabilityFee_spec (hM : M.Exact) (h : Inv M env.now g s L) {perSecondRay : Nat} :
    wp False (setStabilityFee M env perSecondRay) s (fun e _ => Fair e) (fun _ t => Keeps M env.now g s t) := by
  rw [setStabilityFee, wp_bind]
  refine wp_onlyOwner ?_
  rw [wp_bind, wp_check]
  refine ⟨fun _ => by simp [Fair], fun _ => ?_⟩
  rw [wp_bind]
  refine wp_mono (drip_spec hM h) id (fun _ _ he => he.fair) ?_
  rintro _ t ⟨⟨n, ht⟩, hd⟩
  rw [wp_modify]
  exact ⟨⟨_, { ht with backed := fun hG => { ht.backed hG with } }⟩, hd.pending_eq, hd.rate_le⟩

theorem authorizeSurplusDraw_spec (h : Inv M now g s L) {amount destCommitment : Nat} :
    wp False (authorizeSurplusDraw env amount destCommitment) s (fun e _ => Fair e)
      (fun _ t => (∃ L', Inv M now g t L') ∧ t.savings.pendingSurplusDraw = ⟨amount, destCommitment⟩ ∧ t.rate = s.rate) := by
  rw [authorizeSurplusDraw, wp_bind]
  refine wp_onlyOwner ?_
  rw [wp_bind, wp_get, wp_bind, wp_check]
  refine ⟨fun _ => by simp [Fair], fun hamount => ?_⟩
  rw [not_or, Nat.not_lt] at hamount
  rw [wp_bind, wp_check]
  refine ⟨fun _ => by simp [Fair], fun _ => ?_⟩
  rw [onSavings, wp_zoom, wp_modify]
  refine ⟨⟨L, { h with savings := ?_, backed := fun hG => { h.backed hG with } }⟩, rfl, rfl⟩
  exact { h.savings with pending_le := hamount.2 }

theorem setPool_spec (h : Inv M now g s L) {pool : Address} {binds : Bool} :
    wp False (setPool env pool binds) s (fun e _ => Fair e) (fun _ t => Keeps M now g s t) := by
  rw [setPool, wp_bind]
  refine wp_onlyOwner ?_
  rw [wp_bind, wp_get, wp_bind, wp_check]
  refine ⟨fun _ => by simp [Fair], fun _ => ?_⟩
  rw [wp_bind, wp_check]
  refine ⟨fun _ => by simp [Fair], fun _ => ?_⟩
  rw [wp_bind, wp_check]
  refine ⟨fun _ => by simp [Fair], fun _ => ?_⟩
  rw [wp_modify]
  exact Keeps.of_eq ⟨L, { h with backed := fun hG => { h.backed hG with } }⟩ rfl rfl

/-- The owner's knobs fail fairly, whatever they set. -/
theorem knob_spec {k : Knob} {p : Policy} : wp False (k.run env) p (fun e _ => Fair e) (fun _ _ => True) := by
  cases k with
  | setFeeds a b c d =>
    rw [Knob.run, setFeeds, wp_bind]
    refine wp_onlyOwner ?_
    rw [wp_bind, wp_check]
    refine ⟨fun _ => by simp [Fair], fun _ => ?_⟩
    rw [wp_bind, wp_check]
    refine ⟨fun _ => by simp [Fair], fun _ => ?_⟩
    rw [wp_bind, wp_orThrow]
    refine ⟨fun _ => by simp [Fair], fun _ _ => ?_⟩
    rw [wp_bind, wp_orThrow]
    refine ⟨fun _ => by simp [Fair], fun _ _ => ?_⟩
    rw [wp_bind, wp_check]
    refine ⟨fun _ => by simp [Fair], fun _ => ?_⟩
    rw [wp_bind, wp_get, wp_bind, wp_check]
    exact ⟨fun _ => by simp [Fair], fun _ => trivial⟩
  | setDeviationBound bps =>
    rw [Knob.run, setDeviationBound, wp_bind]
    refine wp_onlyOwner ?_
    rw [wp_bind, wp_get, wp_bind, wp_check]
    exact ⟨fun _ => by simp [Fair], fun _ => trivial⟩
  | setParams a b c d =>
    rw [Knob.run, setParams, wp_bind]
    refine wp_onlyOwner ?_
    rw [wp_bind, wp_get, wp_bind, wp_check]
    exact ⟨fun _ => by simp [Fair], fun _ => trivial⟩
  | setEscrowHealthParams a b =>
    rw [Knob.run, setEscrowHealthParams, wp_bind]
    refine wp_onlyOwner ?_
    rw [wp_bind, wp_get, wp_bind, wp_check]
    exact ⟨fun _ => by simp [Fair], fun _ => trivial⟩
  | setEscrowEnforcementModule m =>
    rw [Knob.run, setEscrowEnforcementModule, wp_bind]
    refine wp_onlyOwner ?_
    rw [wp_bind, wp_check]
    exact ⟨fun _ => by simp [Fair], fun _ => trivial⟩

/-- Every call the pool admits keeps the invariant and fails fairly; all but two leave the pending draw alone. -/
theorem Call.run_spec (hM : M.Exact) (h : Inv M env.now g s L) (c : Call) (hg : g.Admits c) :
    wp False (c.run M env cfg) s (fun e _ => Fair e) (fun _ t => (∃ L', Inv M env.now (g.after c) t L') ∧
      (¬ c.Draws → t.savings.pendingSurplusDraw = s.savings.pendingSurplusDraw) ∧ (M.Grows → s.rate ≤ t.rate)) := by
  cases c with
  | onCdpMint legs debtValue leaf snap => exact onCdpMint_spec hM h hg
  | onCdpClose principal repaid snap legs =>
    exact wp_mono (onCdpClose_spec hM h hg) id (fun _ _ he => he) fun _ _ ht => ⟨ht.inv, fun _ => ht.pending_eq, ht.rate_le⟩
  | onCdpLiquidate legs principal repaid snap =>
    exact wp_mono (onCdpLiquidate_spec hM h hg) id (fun _ _ he => he) fun _ _ ht =>
      ⟨ht.inv, fun _ => ht.pending_eq, ht.rate_le⟩
  | onCdpTopup oldLegs newLegs debtValue snap leaf =>
    exact wp_mono (onCdpTopup_spec hM h) id (fun _ _ he => he) fun _ _ ht => ⟨ht.inv, fun _ => ht.pending_eq, ht.rate_le⟩
  | drip =>
    exact wp_mono (drip_spec hM h) id (fun _ _ he => he.fair) fun _ _ ⟨⟨_, ht⟩, hd⟩ => ⟨⟨_, ht⟩, fun _ => hd.pending_eq, hd.rate_le⟩
  | setStabilityFee perSecondRay =>
    exact wp_mono (setStabilityFee_spec hM h) id (fun _ _ he => he) fun _ _ ht =>
      ⟨ht.inv, fun _ => ht.pending_eq, ht.rate_le⟩
  | authorizeSurplusDraw amount destCommitment =>
    exact wp_mono (authorizeSurplusDraw_spec h) id (fun _ _ he => he) fun _ _ ht =>
      ⟨ht.1, fun hd => absurd trivial hd, fun _ => ht.2.2.ge⟩
  | setPool pool binds =>
    exact wp_mono (setPool_spec h) id (fun _ _ he => he) fun _ _ ht => ⟨ht.inv, fun _ => ht.pending_eq, ht.rate_le⟩
  | knob k =>
    rw [Call.run, onPolicy, wp_zoom]
    refine wp_mono knob_spec id (fun _ _ he => he) ?_
    rintro _ p -
    exact ⟨⟨L, { h with backed := fun hG => { h.backed hG with } }⟩, fun _ => rfl, fun _ => Nat.le_refl _⟩

/-! ## Runs -/

/-- The engine with the time of the open block and the pool's view of it. -/
structure World where
  now : Nat
  view : PoolView
  storage : Storage

def World.initial (pool : Address) (now : Nat) : World := ⟨now, ⟨[], fun _ => 0, 0⟩, construct pool now⟩

/-- One call that `P` allows, or the end of a transaction, after which time may pass. -/
inductive Step (M : FixedPointMath) (cfg : Config) (P : Call → Prop) : World → World → Prop
  | call (env : Env) (c : Call) {w : World} {t : Storage} : env.now = w.now → w.view.Admits c → P c →
    c.run M env cfg w.storage = .ok () t → Step M cfg P w ⟨w.now, w.view.after c, t⟩
  | endTransaction (now' : Nat) {w : World} : w.now ≤ now' →
    Step M cfg P w ⟨now', w.view, { w.storage with savingsBonded := false }⟩

/-- What a deployed engine can become. -/
def Reach (M : FixedPointMath) (cfg : Config) (w : World) : Prop :=
  ∃ pool now, Relation.ReflTransGen (Step M cfg fun _ => True) (World.initial pool now) w

def World.Sound (M : FixedPointMath) (w : World) : Prop := ∃ L, Inv M w.now w.view w.storage L

theorem World.sound_initial (pool : Address) (now : Nat) : (World.initial pool now).Sound M := by
  refine ⟨RewardLedger.empty (fun _ => 0) 0, ?_, rfl, fun _ => Nat.le_refl _, rfl, rfl, fun _ => ⟨Nat.le_refl _, by simp [World.initial], ?_⟩⟩
  · refine ⟨⟨by simp [World.initial, construct, RewardLedger.empty], by simp [RewardLedger.empty], rfl, empty_total _ _,
      empty_debt _ _⟩, ?_, Nat.two_pow_pos _, Nat.le_refl _⟩
    rw [empty_owed, Nat.zero_div]
    rfl
  · simp [World.initial, construct, PoolView.owedAt]

theorem Step.sound (hM : M.Exact) {P : Call → Prop} {w w' : World} (hw : w.Sound M) (h : Step M cfg P w w') : w'.Sound M := by
  obtain ⟨L, hL⟩ := hw
  cases h with
  | call env c hnow hadm _ hrun =>
    rw [← hnow] at hL
    obtain ⟨⟨L', ht⟩, -⟩ := wp_of_ok (Call.run_spec hM hL c hadm) hrun
    rw [hnow] at ht
    exact ⟨L', ht⟩
  | endTransaction now' hle =>
    exact ⟨L, { hL with fresh := fun hb => absurd hb Bool.false_ne_true, backed := fun hG => { hL.backed hG with } }⟩

theorem Reach.sound (hM : M.Exact) {w : World} (h : Reach M cfg w) : w.Sound M := by
  obtain ⟨pool, now, hrun⟩ := h
  induction hrun with
  | refl => exact World.sound_initial pool now
  | tail _ hstep ih => exact hstep.sound hM ih

end CollateralEngine

end Tacit
