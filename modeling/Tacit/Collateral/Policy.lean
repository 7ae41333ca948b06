import Tacit.Evm
import Tacit.Pool.State
/-!
# The policy of the collateral engine (contracts/src/CollateralEngine.sol)

The feeds and ratios that the owner sets, and the prices read through them. A feed or a TWAP is an address; what it
answers in a block is part of the environment of the call, none where the call to it reverts. A `uint256` that also
carries a `bytes32` (`rateSnapshot`, `positionLeaf`) is a number.
-/
namespace Tacit

open Prog

namespace CollateralEngine

inductive EngineError
  | badFeed
  | badPool
  | notPool
  | badAmount
  | badEscrow
  | badParams
  | staleFeed
  | badPurpose
  | badSnapshot
  | badRepayment
  | escrowLocked
  | escrowHealthy
  | feedDeviation
  | zeroRecipient
  | nothingToSlash
  | poolAlreadySet
  | badPositionLeaf
  | badSavingsShape
  | feedChangeGrace
  | graceNotElapsed
  | positionHealthy
  | surplusMismatch
  | nothingToRelease
  | savingsOverClaim
  | surplusNoPending
  | notCbtcCollateral
  | enforcementDisabled
  | insufficientReserve
  | undercollateralized
  | escrowStillUnhealthy
  | notEnforcementModule
  | savingsNoLivePosition
  | savingsPositionExists
  | debtAccountingUnderflow
  | sameSettleSavingsBondAndFee
  | unauthorized
  | transferFailed
  | feedReverted
  | mathFailed
  | panic (op : Arith)
deriving DecidableEq

/-- `latestRoundData` and `decimals` of a feed. -/
structure Round where
  roundId : Nat
  answer : Int
  updatedAt : Nat
  answeredInRound : Nat
  decimals : Nat

/-- `twap`. -/
structure Twap where
  price : Nat
  decimals : Nat

/-- What a call sees besides the storage: its sender, the block's time, the owner, and the contracts it reads. -/
structure Env where
  sender : Address
  owner : Address
  now : Nat
  hasCode : Address → Bool
  round : Address → Option Round
  twap : Address → Option Twap

/-- The owner's feeds and ratios (:145-:192). -/
structure Policy where
  wstEthBtcFeed : Address
  btcUsdFeed : Address
  wstEthBtcTwap : Address
  btcUsdTwap : Address
  maxStaleness : Nat
  maxDeviationBps : Nat
  lastFeedChangeAt : Nat
  lastEscrowPolicyChangeAt : Nat
  escrowRatioBps : Nat
  cdpRatioBps : Nat
  liqRatioBps : Nat
  escrowMaintenanceBps : Nat
  escrowGraceWindow : Nat
  escrowEnforcementModule : Address

def Policy.initial : Policy where
  wstEthBtcFeed := 0
  btcUsdFeed := 0
  wstEthBtcTwap := 0
  btcUsdTwap := 0
  maxStaleness := 3600
  maxDeviationBps := 0
  lastFeedChangeAt := 0
  lastEscrowPolicyChangeAt := 0
  escrowRatioBps := 15000
  cdpRatioBps := 15000
  liqRatioBps := 12500
  escrowMaintenanceBps := 0
  escrowGraceWindow := 0
  escrowEnforcementModule := 0

/-- `RAY`. -/
def ray : Nat := 10 ^ 27

/-- `MAX_FEE_PER_SECOND`. -/
def maxFeePerSecond : Nat := ray + 10 ^ 19

/-- `FEED_CHANGE_LIQ_GRACE`. -/
def feedChangeLiqGrace : Nat := 6 * 60 * 60

/-- `MIN_ESCROW_GRACE_WINDOW`. -/
def minEscrowGraceWindow : Nat := 3 * 24 * 60 * 60

/-- `MAX_LIQ_RATIO_BPS`. -/
def maxLiqRatioBps : Nat := 15000

/-- `CBTC_DEC` and `CUSD_DEC`, which the constructor holds to eight (:341-:346). -/
def assetDec : Nat := 8

section

variable {σ : Type}

def mul (a b : Nat) : Prog σ EngineError Nat := orThrow (uint256 (a * b)) (.panic .mul)

def add (a b : Nat) : Prog σ EngineError Nat := orThrow (uint256 (a + b)) (.panic .add)

def sub (a b : Nat) : Prog σ EngineError Nat := orThrow (uintSub a b) (.panic .sub)

/-- `10 ** d`. -/
def pow10 (d : Nat) : Prog σ EngineError Nat := orThrow (uint256 (10 ^ d)) (.panic .mul)

end

abbrev PolicyM := Prog Policy EngineError

variable (env : Env)

/-! ## Prices -/

/-- The bound against the second source (:605-:617). -/
def checkDeviation (price dec : Nat) (t : Twap) : PolicyM Unit := do
  let p ← get
  check (18 < t.decimals) .badFeed
  let scaled ← mul price (10 ^ 18)
  let unit ← pow10 dec
  let cl18 := scaled / unit
  let scaled ← mul t.price (10 ^ 18)
  let unit ← pow10 t.decimals
  let amm18 := scaled / unit
  let diff := if amm18 < cl18 then cl18 - amm18 else amm18 - cl18
  check (amm18 = 0) .feedDeviation
  let deviation ← mul diff 10000
  let bound ← mul p.maxDeviationBps amm18
  check (bound < deviation) .feedDeviation

/-- `_price` (:593). -/
def price (feed twap : Address) : PolicyM (Nat × Nat) := do
  let p ← get
  check (feed = 0) .badFeed
  let r ← orThrow (env.round feed) .feedReverted
  check (r.answer ≤ 0) .badFeed
  check (r.updatedAt = 0 ∨ env.now < r.updatedAt ∨ p.maxStaleness < env.now - r.updatedAt) .staleFeed
  check (r.answeredInRound < r.roundId) .staleFeed
  if twap ≠ 0 ∧ p.maxDeviationBps ≠ 0 then do
    let t ← orThrow (env.twap twap) .feedReverted
    checkDeviation r.answer.toNat r.decimals t
  else pure ()
  pure (r.answer.toNat, r.decimals)

/-- `wstEthForBtc` (:621). -/
def wstEthForBtc (vBtc : Nat) : PolicyM Nat := do
  let p ← get
  let (price, dec) ← price env p.wstEthBtcFeed p.wstEthBtcTwap
  let unit ← pow10 dec
  let a ← mul vBtc unit
  let a ← mul a (10 ^ 18)
  let b ← mul price (10 ^ assetDec)
  pure (a / b)

/-- `btcToUsd` (:628). -/
def btcToUsd (vBtc : Nat) : PolicyM Nat := do
  let p ← get
  let (price, dec) ← price env p.btcUsdFeed p.btcUsdTwap
  let a ← mul vBtc price
  let a ← mul a (10 ^ assetDec)
  let unit ← pow10 dec
  let b ← mul unit (10 ^ assetDec)
  pure (a / b)

/-- `requiredEscrow` (:637). -/
def requiredEscrow (vBtc : Nat) : PolicyM Nat := do
  let p ← get
  let w ← wstEthForBtc env vBtc
  let a ← mul w p.escrowRatioBps
  pure (a / 10000)

/-- `_basketUsd` (:1172). -/
def basketUsd (cbtcAssetId : Word) (legs : List ConfidentialPool.CdpLeg) : PolicyM Nat := do
  check (legs = []) .undercollateralized
  go legs 0
where
  go : List ConfidentialPool.CdpLeg → Nat → PolicyM Nat
    | [], usd => pure usd
    | l :: legs, usd => do
      check (l.asset ≠ cbtcAssetId) .notCbtcCollateral
      check (l.value = 0) .undercollateralized
      let v ← btcToUsd env l.value
      let usd ← add usd v
      go legs usd

/-! ## The owner's knobs -/

/-- `onlyOwner`. -/
def onlyOwner {σ : Type} : Prog σ EngineError Unit := check (env.sender ≠ env.owner) .unauthorized

/-- `setFeeds` (:378). -/
def setFeeds (wstEthBtc btcUsd wstEthBtcTwap btcUsdTwap : Address) : PolicyM Unit := do
  onlyOwner env
  check (wstEthBtc = 0 ∨ btcUsd = 0 ∨ env.hasCode wstEthBtc = false ∨ env.hasCode btcUsd = false) .badFeed
  check ((wstEthBtcTwap ≠ 0 ∧ env.hasCode wstEthBtcTwap = false) ∨ (btcUsdTwap ≠ 0 ∧ env.hasCode btcUsdTwap = false)) .badFeed
  let r ← orThrow (env.round wstEthBtc) .feedReverted
  let r' ← orThrow (env.round btcUsd) .feedReverted
  check (18 < r.decimals ∨ 18 < r'.decimals) .badFeed
  let p ← get
  check (p.maxDeviationBps ≠ 0 ∧ (wstEthBtcTwap = 0 ∨ btcUsdTwap = 0)) .badFeed
  let changed := wstEthBtc ≠ p.wstEthBtcFeed ∨ btcUsd ≠ p.btcUsdFeed ∨ wstEthBtcTwap ≠ p.wstEthBtcTwap ∨
    btcUsdTwap ≠ p.btcUsdTwap
  modify fun p => { p with
    wstEthBtcFeed := wstEthBtc, btcUsdFeed := btcUsd, wstEthBtcTwap := wstEthBtcTwap, btcUsdTwap := btcUsdTwap,
    lastFeedChangeAt := if changed then env.now else p.lastFeedChangeAt }

/-- `setDeviationBound` (:421). -/
def setDeviationBound (bps : Nat) : PolicyM Unit := do
  onlyOwner env
  let p ← get
  check (10000 < bps ∨ (p.maxDeviationBps ≠ 0 ∧ bps = 0)) .badParams
  modify fun p => { p with maxDeviationBps := bps }

/-- `setParams` (:429). -/
def setParams (maxStaleness escrowRatioBps cdpRatioBps liqRatioBps : Nat) : PolicyM Unit := do
  onlyOwner env
  let p ← get
  check (maxStaleness < 60 * 60 ∨ 24 * 60 * 60 < maxStaleness ∨ escrowRatioBps < 10000 ∨ 100000 < escrowRatioBps ∨
    liqRatioBps < 11000 ∨ maxLiqRatioBps < liqRatioBps ∨ cdpRatioBps ≤ liqRatioBps ∨ 100000 < cdpRatioBps ∨
    (p.escrowMaintenanceBps ≠ 0 ∧ escrowRatioBps ≤ p.escrowMaintenanceBps)) .badParams
  modify fun p => { p with
    lastFeedChangeAt := if p.liqRatioBps < liqRatioBps then env.now else p.lastFeedChangeAt,
    maxStaleness := maxStaleness, escrowRatioBps := escrowRatioBps, cdpRatioBps := cdpRatioBps,
    liqRatioBps := liqRatioBps }

/-- `setEscrowHealthParams` (:474). -/
def setEscrowHealthParams (maintenanceBps graceWindow : Nat) : PolicyM Unit := do
  onlyOwner env
  let p ← get
  check (maintenanceBps ≠ 0 ∧ (maintenanceBps < 10000 ∨ p.escrowRatioBps ≤ maintenanceBps ∨
    graceWindow < minEscrowGraceWindow ∨ 30 * 24 * 60 * 60 < graceWindow)) .badParams
  modify fun p => { p with
    lastEscrowPolicyChangeAt := if p.escrowMaintenanceBps < maintenanceBps ∨ graceWindow < p.escrowGraceWindow
      then env.now else p.lastEscrowPolicyChangeAt,
    escrowMaintenanceBps := maintenanceBps, escrowGraceWindow := graceWindow }

/-- `setEscrowEnforcementModule` (:500). -/
def setEscrowEnforcementModule (m : Address) : PolicyM Unit := do
  onlyOwner env
  check (m ≠ 0 ∧ env.hasCode m = false) .badPool
  modify fun p => { p with
    lastEscrowPolicyChangeAt := if m ≠ 0 ∧ m ≠ p.escrowEnforcementModule then env.now else p.lastEscrowPolicyChangeAt,
    escrowEnforcementModule := m }

inductive Knob
  | setFeeds (wstEthBtc btcUsd wstEthBtcTwap btcUsdTwap : Address)
  | setDeviationBound (bps : Nat)
  | setParams (maxStaleness escrowRatioBps cdpRatioBps liqRatioBps : Nat)
  | setEscrowHealthParams (maintenanceBps graceWindow : Nat)
  | setEscrowEnforcementModule (m : Address)

def Knob.run : Knob → PolicyM Unit
  | .setFeeds a b c d => CollateralEngine.setFeeds env a b c d
  | .setDeviationBound bps => CollateralEngine.setDeviationBound env bps
  | .setParams a b c d => CollateralEngine.setParams env a b c d
  | .setEscrowHealthParams a b => CollateralEngine.setEscrowHealthParams env a b
  | .setEscrowEnforcementModule m => CollateralEngine.setEscrowEnforcementModule env m

end CollateralEngine

end Tacit
