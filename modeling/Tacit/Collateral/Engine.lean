import Tacit.Collateral.Policy
import Tacit.Lib.Zoom
/-!
# The cUSD controller of the collateral engine

The debt accumulator and the callbacks of the pool for positions, the savings rate and the surplus draws. The savings
rate keeps its own record, `Savings`. The transient flag of a bond is a field that the end of the transaction clears.
-/
namespace Tacit

open Prog

namespace CollateralEngine

/-- Solady's `FixedPointMathLib`, which is not part of the repository; none where it reverts. -/
structure FixedPointMath where
  fullMulDiv : Nat → Nat → Nat → Option Nat
  fullMulDivUp : Nat → Nat → Nat → Option Nat
  rpow : Nat → Nat → Nat → Option Nat

/-- `SAVINGS_PRECISION`. -/
def savingsPrecision : Nat := 2 ^ 64

/-- The immutables, with the debt asset the constructor derives from the address. -/
structure Config where
  cbtcAssetId : Word
  cusdAssetId : Word

/-- A surplus draw the owner has authorised; the amount is zero where there is none. -/
structure SurplusDraw where
  amount : Nat
  destCommitment : Nat

/-- The fee budget and the savings rate (:214-:252). -/
structure Savings where
  feeBudgetCusd : Nat
  feesAccruedCusd : Nat
  surplusFeeCusd : Nat
  pendingSurplusDraw : SurplusDraw
  savingsRps : Nat
  totalSavingsShares : Nat
  totalSavingsRewardDebt : Nat
  savingsEntryRps : Nat → Nat
  savingsEntryStamped : Nat → Bool

structure Storage where
  pool : Address
  policy : Policy
  outstandingCusd : Nat
  normalizedDebtRay : Nat
  rate : Nat
  stabilityFeePerSecond : Nat
  lastDrip : Nat
  savings : Savings
  savingsBonded : Bool

/-- The state the constructor leaves (:333). -/
def construct (pool : Address) (now : Nat) : Storage where
  pool := pool
  policy := Policy.initial
  outstandingCusd := 0
  normalizedDebtRay := 0
  rate := ray
  stabilityFeePerSecond := 0
  lastDrip := now
  savings := ⟨0, 0, 0, ⟨0, 0⟩, 0, 0, 0, fun _ => 0, fun _ => false⟩
  savingsBonded := false

abbrev SavingsM := Prog Savings EngineError

abbrev EngineM := Prog Storage EngineError

def onPolicy {α : Type} (m : PolicyM α) : EngineM α := zoom Storage.policy (fun p s => { s with policy := p }) m

def onSavings {α : Type} (m : SavingsM α) : EngineM α := zoom Storage.savings (fun v s => { s with savings := v }) m

section

variable (M : FixedPointMath)

/-- A call of the library. -/
def fullMulDiv {σ : Type} (x y d : Nat) : Prog σ EngineError Nat := orThrow (M.fullMulDiv x y d) .mathFailed

/-! ## The fee budget -/

/-- `outstandingSavingsReward` (:1129). -/
def outstandingSavingsReward : SavingsM Nat := do
  let s ← get
  let a ← mul s.savingsRps s.totalSavingsShares
  let d ← sub a s.totalSavingsRewardDebt
  pure (d / savingsPrecision)

/-- `_bookSurplusFee` (:988). -/
def bookSurplusFee (fee : Nat) : SavingsM Unit := do
  if fee = 0 then pure ()
  else do
    let s ← get
    let budget ← add s.feeBudgetCusd fee
    let accrued ← add s.feesAccruedCusd fee
    let surplus ← add s.surplusFeeCusd fee
    modify fun s => { s with feeBudgetCusd := budget, feesAccruedCusd := accrued, surplusFeeCusd := surplus }

/-- The two branches of `_accrueFee` (:1008-:1029): what the savers are not granted is surplus. -/
def distribute (fee : Nat) : SavingsM Unit := do
  let s ← get
  if s.totalSavingsShares ≠ 0 then do
    let owedBefore ← outstandingSavingsReward
    let rpsDelta ← fullMulDiv M fee savingsPrecision s.totalSavingsShares
    let rps ← add s.savingsRps rpsDelta
    modify fun s => { s with savingsRps := rps }
    let owedAfter ← outstandingSavingsReward
    let granted ← sub owedAfter owedBefore
    let rest ← sub fee granted
    let surplus ← add s.surplusFeeCusd rest
    modify fun s => { s with surplusFeeCusd := surplus }
  else do
    let surplus ← add s.surplusFeeCusd fee
    modify fun s => { s with surplusFeeCusd := surplus }

/-- `_accrueFee` (:1002). -/
def accrueFee (bonded : Bool) (fee : Nat) : SavingsM Unit := do
  if fee = 0 then pure ()
  else do
    check (bonded = true) .sameSettleSavingsBondAndFee
    let s ← get
    let budget ← add s.feeBudgetCusd fee
    let accrued ← add s.feesAccruedCusd fee
    modify fun s => { s with feeBudgetCusd := budget, feesAccruedCusd := accrued }
    distribute M fee

/-- The bond branch of `_savingsReceipt` (:1061-:1070). -/
def bondReceipt (shares receipt : Nat) : SavingsM Unit := do
  let s ← get
  check (s.savingsEntryStamped receipt = true) .savingsPositionExists
  let total ← add s.totalSavingsShares shares
  let product ← mul shares s.savingsRps
  let debt ← add s.totalSavingsRewardDebt product
  modify fun s => { s with
    savingsEntryStamped := Function.update s.savingsEntryStamped receipt true,
    savingsEntryRps := Function.update s.savingsEntryRps receipt s.savingsRps,
    totalSavingsShares := total, totalSavingsRewardDebt := debt }

/-- The harvest branch of `_savingsReceipt` (:1071-:1093). -/
def harvestReceipt (shares reward receipt : Nat) : SavingsM Unit := do
  let s ← get
  check (s.savingsEntryStamped receipt = false) .savingsNoLivePosition
  let window ← sub s.savingsRps (s.savingsEntryRps receipt)
  let entitled ← fullMulDiv M shares window savingsPrecision
  check (entitled < reward) .savingsOverClaim
  check (s.feeBudgetCusd < reward) .savingsOverClaim
  let owedBefore ← outstandingSavingsReward
  let product ← mul shares window
  let debt ← add s.totalSavingsRewardDebt product
  modify fun s => { s with totalSavingsRewardDebt := debt }
  let owedAfter ← outstandingSavingsReward
  let consumed ← sub owedBefore owedAfter
  let budget ← sub s.feeBudgetCusd reward
  let rest ← sub consumed reward
  let surplus ← add s.surplusFeeCusd rest
  modify fun s => { s with
    savingsEntryRps := Function.update s.savingsEntryRps receipt s.savingsRps,
    feeBudgetCusd := budget, surplusFeeCusd := surplus }

/-- The unbond branch of `onCdpClose` (:919-:942). -/
def unbondReceipt (cfg : Config) (legs : List ConfidentialPool.CdpLeg) (receipt : Nat) : SavingsM Unit := do
  match legs with
  | [l] => do
    check (l.asset ≠ cfg.cusdAssetId ∨ l.value = 0) .badSavingsShape
    let s ← get
    check (s.savingsEntryStamped receipt = false) .savingsNoLivePosition
    check (s.totalSavingsShares < l.value) .badSavingsShape
    let owedBefore ← outstandingSavingsReward
    let product ← mul l.value (s.savingsEntryRps receipt)
    let debt ← sub s.totalSavingsRewardDebt product
    modify fun s => { s with totalSavingsRewardDebt := debt, totalSavingsShares := s.totalSavingsShares - l.value }
    let owedAfter ← outstandingSavingsReward
    let rest ← sub owedBefore owedAfter
    let surplus ← add s.surplusFeeCusd rest
    modify fun s => { s with
      surplusFeeCusd := surplus, savingsEntryRps := Function.update s.savingsEntryRps receipt 0,
      savingsEntryStamped := Function.update s.savingsEntryStamped receipt false }
  | _ => throw .badSavingsShape

/-- `_surplusDraw` (:1102). -/
def surplusDraw (amount destCommitment : Nat) : SavingsM Unit := do
  let s ← get
  let p := s.pendingSurplusDraw
  check (p.amount = 0) .surplusNoPending
  check (amount ≠ p.amount ∨ destCommitment ≠ p.destCommitment) .surplusMismatch
  check (s.surplusFeeCusd < amount) .debtAccountingUnderflow
  let owed ← outstandingSavingsReward
  let needed ← add amount owed
  check (s.feeBudgetCusd < needed) .debtAccountingUnderflow
  let surplus ← sub s.surplusFeeCusd amount
  let budget ← sub s.feeBudgetCusd amount
  modify fun s => { s with surplusFeeCusd := surplus, feeBudgetCusd := budget, pendingSurplusDraw := ⟨0, 0⟩ }

/-! ## The debt accumulator -/

variable (env : Env)

/-- The interest that a compounding step adds up over all positions (:563-:565). -/
def accrueInterest (rateOld rateNew : Nat) : EngineM Unit := do
  let s ← get
  if rateOld < rateNew ∧ s.normalizedDebtRay ≠ 0 then do
    let fee ← fullMulDiv M s.normalizedDebtRay (rateNew - rateOld) ray
    onSavings (accrueFee M s.savingsBonded fee)
  else pure ()

/-- `drip` (:545). -/
def drip : EngineM Unit := do
  let s ← get
  if env.now ≤ s.lastDrip then pure ()
  else if s.stabilityFeePerSecond ≤ ray then modify fun s => { s with lastDrip := env.now }
  else do
    let factor ← orThrow (M.rpow s.stabilityFeePerSecond (env.now - s.lastDrip) ray) .mathFailed
    let rateNew ← fullMulDiv M factor s.rate ray
    modify fun s => { s with rate := rateNew, lastDrip := env.now }
    accrueInterest M s.rate rateNew

/-- `_owed` (:572). -/
def owed (principal snap : Nat) : EngineM Nat := do
  let s ← get
  check (snap < ray ∨ s.rate < snap) .badSnapshot
  if s.rate ≤ snap then pure principal else orThrow (M.fullMulDivUp principal s.rate snap) .mathFailed

/-- The over-repay band (:944, :973). -/
def checkRepaid (owed repaid : Nat) : EngineM Unit := do
  check (repaid < owed) .badRepayment
  let ceiling ← add owed (owed / 100)
  check (ceiling < repaid) .badRepayment

/-- `_retirePosition` (:1039). -/
def retirePosition (principal snap owed repaid : Nat) : EngineM Unit := do
  let art ← fullMulDiv M principal ray snap
  let s ← get
  let debt ← sub s.normalizedDebtRay art
  modify fun s => { s with normalizedDebtRay := debt }
  let dust ← sub repaid owed
  onSavings (bookSurplusFee dust)

/-- `setStabilityFee` (:524). -/
def setStabilityFee (perSecondRay : Nat) : EngineM Unit := do
  onlyOwner env
  check (perSecondRay ≠ 0 ∧ (perSecondRay < ray ∨ maxFeePerSecond < perSecondRay)) .badParams
  drip M env
  modify fun s => { s with stabilityFeePerSecond := perSecondRay }

/-- `authorizeSurplusDraw` (:536). -/
def authorizeSurplusDraw (amount destCommitment : Nat) : EngineM Unit := do
  onlyOwner env
  let s ← get
  check (amount = 0 ∨ s.savings.surplusFeeCusd < amount) .badAmount
  check (destCommitment = 0) .badParams
  onSavings (modify fun v => { v with pendingSurplusDraw := ⟨amount, destCommitment⟩ })

/-- `setPool` (:365); `binds` is whether the pool points back. -/
def setPool (pool : Address) (binds : Bool) : EngineM Unit := do
  onlyOwner env
  let s ← get
  check (s.pool ≠ 0) .poolAlreadySet
  check (pool = 0 ∨ env.hasCode pool = false) .badPool
  check (binds = false) .badPool
  modify fun s => { s with pool := pool }

/-! ## The callbacks of the pool -/

variable (cfg : Config)

/-- `_savingsReceipt` (:1056). -/
def savingsReceipt (legs : List ConfidentialPool.CdpLeg) (reward receipt : Nat) : EngineM Unit := do
  match legs with
  | [l] => do
    check (l.asset ≠ cfg.cusdAssetId ∨ l.value = 0) .badSavingsShape
    check (receipt = 0) .badSavingsShape
    if reward = 0 then do
      onSavings (bondReceipt l.value receipt)
      modify fun s => { s with savingsBonded := true }
    else onSavings (harvestReceipt M l.value reward receipt)
  | _ => throw .badSavingsShape

/-- The position branch of `onCdpMint` (:852-:892). -/
def mintPosition (legs : List ConfidentialPool.CdpLeg) (debtValue rateSnapshot : Nat) : EngineM Unit := do
  check (debtValue = 0) .badAmount
  let s ← get
  check (rateSnapshot < ray ∨ s.rate < rateSnapshot) .badSnapshot
  let graceEnd ← add s.policy.lastFeedChangeAt feedChangeLiqGrace
  check (env.now < graceEnd) .feedChangeGrace
  let collateralUsd ← onPolicy (basketUsd env cfg.cbtcAssetId legs)
  let owedNow ← owed M debtValue rateSnapshot
  let needed ← mul owedNow s.policy.cdpRatioBps
  let backing ← mul collateralUsd 10000
  check (backing < needed) .undercollateralized
  let outstanding ← add s.outstandingCusd debtValue
  let artAdded ← fullMulDiv M debtValue ray rateSnapshot
  check (artAdded = 0) .badAmount
  let normalized ← add s.normalizedDebtRay artAdded
  modify fun s => { s with outstandingCusd := outstanding, normalizedDebtRay := normalized }
  let debtAdded ← fullMulDiv M artAdded s.rate ray
  if debtValue < debtAdded then onSavings (bookSurplusFee (debtAdded - debtValue)) else pure ()

/-- `onCdpMint` (:828). -/
def onCdpMint (legs : List ConfidentialPool.CdpLeg) (debtValue positionLeaf rateSnapshot : Nat) : EngineM Unit := do
  let s ← get
  check (env.sender ≠ s.pool) .notPool
  drip M env
  if positionLeaf = 1 then savingsReceipt M cfg legs debtValue rateSnapshot
  else if positionLeaf = 2 then onSavings (surplusDraw debtValue rateSnapshot)
  else do
    check (positionLeaf ≤ 2) .badPositionLeaf
    mintPosition M env cfg legs debtValue rateSnapshot

/-- The position branch of `onCdpClose` (:943-:957). -/
def closePosition (principal repaid rateSnapshot : Nat) : EngineM Unit := do
  let s ← get
  check (s.outstandingCusd < principal) .debtAccountingUnderflow
  let owed ← owed M principal rateSnapshot
  checkRepaid owed repaid
  modify fun s => { s with outstandingCusd := s.outstandingCusd - principal }
  retirePosition M principal rateSnapshot owed repaid

/-- `onCdpClose` (:905). -/
def onCdpClose (principal repaid rateSnapshot : Nat) (legs : List ConfidentialPool.CdpLeg) : EngineM Unit := do
  let s ← get
  check (env.sender ≠ s.pool) .notPool
  drip M env
  if principal = 0 then do
    check (repaid ≠ 0) .badSavingsShape
    onSavings (unbondReceipt cfg legs rateSnapshot)
  else closePosition M principal repaid rateSnapshot

/-- `onCdpLiquidate` (:958). -/
def onCdpLiquidate (legs : List ConfidentialPool.CdpLeg) (principal repaid rateSnapshot : Nat) : EngineM Unit := do
  let s ← get
  check (env.sender ≠ s.pool) .notPool
  check (principal = 0) .badAmount
  check (s.outstandingCusd < principal) .debtAccountingUnderflow
  let graceEnd ← add s.policy.lastFeedChangeAt feedChangeLiqGrace
  check (env.now < graceEnd) .feedChangeGrace
  drip M env
  let owed ← owed M principal rateSnapshot
  checkRepaid owed repaid
  let collateralUsd ← onPolicy (basketUsd env cfg.cbtcAssetId legs)
  let backing ← mul collateralUsd 10000
  let threshold ← mul owed s.policy.liqRatioBps
  check (threshold ≤ backing) .positionHealthy
  modify fun s => { s with outstandingCusd := s.outstandingCusd - principal }
  retirePosition M principal rateSnapshot owed repaid

/-- `onCdpTopup` (:1143). -/
def onCdpTopup (oldLegs newLegs : List ConfidentialPool.CdpLeg) (debtValue rateSnapshot newPositionLeaf : Nat) :
    EngineM Unit := do
  let s ← get
  check (env.sender ≠ s.pool) .notPool
  check (newPositionLeaf ≤ 2) .badPositionLeaf
  check (debtValue = 0) .badAmount
  drip M env
  let owed ← owed M debtValue rateSnapshot
  let oldCollateralUsd ← onPolicy (basketUsd env cfg.cbtcAssetId oldLegs)
  let newCollateralUsd ← onPolicy (basketUsd env cfg.cbtcAssetId newLegs)
  check (newCollateralUsd ≤ oldCollateralUsd) .undercollateralized
  let needed ← mul owed s.policy.cdpRatioBps
  let backing ← mul newCollateralUsd 10000
  check (backing < needed) .undercollateralized

/-! ## Calls -/

/-- The transactions, and the callbacks inside one, that reach this part of the engine. -/
inductive Call
  | onCdpMint (legs : List ConfidentialPool.CdpLeg) (debtValue positionLeaf rateSnapshot : Nat)
  | onCdpClose (principal repaid rateSnapshot : Nat) (legs : List ConfidentialPool.CdpLeg)
  | onCdpLiquidate (legs : List ConfidentialPool.CdpLeg) (principal repaid rateSnapshot : Nat)
  | onCdpTopup (oldLegs newLegs : List ConfidentialPool.CdpLeg) (debtValue rateSnapshot newPositionLeaf : Nat)
  | drip
  | setStabilityFee (perSecondRay : Nat)
  | authorizeSurplusDraw (amount destCommitment : Nat)
  | setPool (pool : Address) (binds : Bool)
  | knob (k : Knob)

def Call.run : Call → EngineM Unit
  | .onCdpMint legs debtValue positionLeaf rateSnapshot =>
    CollateralEngine.onCdpMint M env cfg legs debtValue positionLeaf rateSnapshot
  | .onCdpClose principal repaid rateSnapshot legs => CollateralEngine.onCdpClose M env cfg principal repaid rateSnapshot legs
  | .onCdpLiquidate legs principal repaid rateSnapshot =>
    CollateralEngine.onCdpLiquidate M env cfg legs principal repaid rateSnapshot
  | .onCdpTopup oldLegs newLegs debtValue rateSnapshot newPositionLeaf =>
    CollateralEngine.onCdpTopup M env cfg oldLegs newLegs debtValue rateSnapshot newPositionLeaf
  | .drip => CollateralEngine.drip M env
  | .setStabilityFee perSecondRay => CollateralEngine.setStabilityFee M env perSecondRay
  | .authorizeSurplusDraw amount destCommitment => CollateralEngine.authorizeSurplusDraw env amount destCommitment
  | .setPool pool binds => CollateralEngine.setPool env pool binds
  | .knob k => onPolicy (k.run env)

end

end CollateralEngine

end Tacit
