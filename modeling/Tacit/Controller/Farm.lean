import Tacit.Evm
import Tacit.Pool.State
import Tacit.Reflection.Farm.Moves
/-!
# The farm controller (contracts/src/FarmController.sol)

The storage of a farm, the calls of its governance, and the calls that the pool makes for the guest's farm
operations. The pool keeps the farm's treasury; it is the last field of the storage here, and `fund`, the debit of a
harvest and the release of `recover` are the pool's. A `uint256` that carries 32 bytes (`rateSnapshot`) is a word.
-/
namespace Tacit

open Prog

namespace FarmController

inductive FarmError
  | locked
  | notGov
  | notPool
  | tooEarly
  | overClaim
  | rateTooHigh
  | zeroAddress
  | badFarmShape
  | notSupported
  | unfundedRate
  | zeroDuration
  | noLivePosition
  | positionExists
  | wrongStakeAsset
  | wrongRewardAsset
  | barePayoutUnsupported
  | lockExtensionForbidden
  | insufficientEscrow
  | pool
  | panic (op : Arith)
deriving DecidableEq

/-- The immutables (:45-:71), with the debt asset the constructor derives from the address. -/
structure Config where
  pool : Address
  stakeAsset : Word
  rewardAsset : Word
  debtAsset : Word
  escrowMode : Bool
  receiptMode : Bool
  gov : Address
  shape : escrowMode ≠ decide (rewardAsset = debtAsset)

structure Storage where
  rate : Nat
  periodFinish : Nat
  lockUntil : Nat
  totalShares : Nat
  rps : Nat
  lastUpdate : Nat
  totalRewardDebt : Nat
  entryRps : Word → Nat
  entryStamped : Word → Bool
  treasury : Nat

/-- The state the constructor leaves (:124). -/
def construct (lockUntil now : Nat) : Storage where
  rate := 0
  periodFinish := 0
  lockUntil := lockUntil
  totalShares := 0
  rps := 0
  lastUpdate := now
  totalRewardDebt := 0
  entryRps _ := 0
  entryStamped _ := false
  treasury := 0

/-- `PRECISION`. -/
def precision : Nat := 2 ^ 64

/-- `RECOVER_GRACE`. -/
def recoverGrace : Nat := 7 * 24 * 60 * 60

/-- `RECEIPT`. -/
def receiptSentinel : Word := wordOfNat 1

abbrev FarmM := Prog Storage FarmError

def mul (a b : Nat) : FarmM Nat := orThrow (uint256 (a * b)) (.panic .mul)

def add (a b : Nat) : FarmM Nat := orThrow (uint256 (a + b)) (.panic .add)

def sub (a b : Nat) : FarmM Nat := orThrow (uintSub a b) (.panic .sub)

/-! ## Accrual -/

/-- The `ts != 0` branch of `_accrue`: the index grows by the emission of `dt` seconds. -/
def emit (s : Storage) (dt : Nat) : FarmM Unit := do
  let a ← mul s.rate dt
  let gross ← mul a precision
  let rps ← add s.rps (gross / s.totalShares)
  modify fun s => { s with rps := rps }

/-- `_accrue` (:214). -/
def accrue (now : Nat) : FarmM Unit := do
  let s ← get
  let applicable := if now < s.periodFinish then now else s.periodFinish
  if applicable ≤ s.lastUpdate then pure ()
  else do
    if s.totalShares ≠ 0 then emit s (applicable - s.lastUpdate) else pure ()
    modify fun s => { s with lastUpdate := applicable }

/-- `outstandingReward` (:230). -/
def outstandingReward : FarmM Nat := do
  let s ← get
  let a ← mul s.rps s.totalShares
  let d ← sub a s.totalRewardDebt
  pure (d / precision)

/-! ## Governance -/

/-- Who calls, and the block's timestamp. -/
structure Env where
  sender : Address
  now : Nat

section

variable (cfg : Config) (env : Env)

/-- The rate that a new reward and the rest of the running period give (:156-:161). -/
def nextRate (reward duration : Nat) : FarmM Nat := do
  let s ← get
  if s.periodFinish ≤ env.now then pure (reward / duration)
  else do
    let left ← sub s.periodFinish env.now
    let leftover ← mul left s.rate
    let total ← add reward leftover
    pure (total / duration)

/-- The treasury must cover the new schedule and what is already earned (:175). -/
def checkFunded (newRate duration : Nat) : FarmM Unit := do
  let owed ← outstandingReward
  let schedule ← mul newRate duration
  let required ← add owed schedule
  let s ← get
  check (s.treasury < required) .unfundedRate

/-- `notifyRewardAmount` (:151). -/
def notifyRewardAmount (reward duration : Nat) : FarmM Unit := do
  check (env.sender ≠ cfg.gov) .notGov
  check (duration = 0) .zeroDuration
  accrue env.now
  let newRate ← nextRate env reward duration
  check (newRate = 0) .badFarmShape
  check (2 ^ 64 - 1 < newRate) .rateTooHigh
  if cfg.escrowMode then checkFunded newRate duration else pure ()
  let finish ← add env.now duration
  modify fun s => { s with rate := newRate, periodFinish := finish, lastUpdate := env.now }

/-- The release of the pool's `farmEscrow` (ConfidentialPool.sol:1641-:1645) to the calling controller; `paid` is
whether the checks and the payout of the pool go through. -/
def release (paid : Bool) : FarmM Nat := do
  check (paid = false) .pool
  let reserve ← outstandingReward
  let s ← get
  let out := if reserve < s.treasury then s.treasury - reserve else 0
  modify fun s => { s with treasury := s.treasury - out }
  pure out

/-- `recover` (:191). -/
def recover (recipient : Address) (paid : Bool) : FarmM Nat := do
  check (env.sender ≠ cfg.gov) .notGov
  check (cfg.escrowMode = false) .notSupported
  check (recipient = 0) .zeroAddress
  let s ← get
  let graceEnd ← add s.periodFinish recoverGrace
  check (env.now < graceEnd) .tooEarly
  accrue env.now
  release paid

/-- `setLockUntil` (:363). -/
def setLockUntil (newLockUntil : Nat) : FarmM Unit := do
  check (env.sender ≠ cfg.gov) .notGov
  let s ← get
  check (s.lockUntil < newLockUntil) .lockExtensionForbidden
  modify fun s => { s with lockUntil := newLockUntil }

/-! ## The callbacks of the pool -/

/-- `_stakeWeight` (:243). -/
def stakeWeight (legs : List ConfidentialPool.CdpLeg) : FarmM Nat := do
  check (legs = []) .badFarmShape
  go legs 0
where
  go : List ConfidentialPool.CdpLeg → Nat → FarmM Nat
    | [], w => pure w
    | l :: legs, w => do
      check (l.asset ≠ cfg.stakeAsset) .wrongStakeAsset
      check (l.value = 0) .badFarmShape
      let w ← add w l.value
      go legs w

/-- The bond branch of `onCdpMint` (:279-:295). -/
def bondReceipt (asset : Word) (shares : Nat) (receipt : Word) : FarmM Unit := do
  let s ← get
  check (asset ≠ cfg.stakeAsset) .wrongStakeAsset
  check (s.entryStamped receipt = true) .positionExists
  let total ← add s.totalShares shares
  let product ← mul shares s.rps
  let debt ← add s.totalRewardDebt product
  modify fun s => { s with
    entryStamped := Function.update s.entryStamped receipt true, entryRps := Function.update s.entryRps receipt s.rps,
    totalShares := total, totalRewardDebt := debt }

/-- The harvest branch of `onCdpMint` (:296-:310). -/
def harvestReceipt (asset : Word) (shares reward : Nat) (receipt : Word) : FarmM Unit := do
  let s ← get
  check (asset ≠ cfg.rewardAsset) .wrongRewardAsset
  check (s.entryStamped receipt = false) .noLivePosition
  let window ← sub s.rps (s.entryRps receipt)
  let claimed ← mul reward precision
  let earned ← mul shares window
  check (earned < claimed) .overClaim
  let product ← mul shares window
  let debt ← add s.totalRewardDebt product
  modify fun s => { s with totalRewardDebt := debt, entryRps := Function.update s.entryRps receipt s.rps }

/-- `onCdpMint` (:262). -/
def onCdpMint (legs : List ConfidentialPool.CdpLeg) (debtValue : Nat) (positionLeaf rateSnapshot : Word) : FarmM Unit := do
  check (env.sender ≠ cfg.pool) .notPool
  accrue env.now
  if positionLeaf = receiptSentinel then do
    check (cfg.receiptMode = false) .notSupported
    match legs with
    | [l] => do
      check (l.value = 0) .badFarmShape
      check (rateSnapshot = 0) .badFarmShape
      if debtValue = 0 then bondReceipt cfg l.asset l.value rateSnapshot
      else harvestReceipt cfg l.asset l.value debtValue rateSnapshot
    | _ => throw .badFarmShape
  else if positionLeaf = 0 then throw .barePayoutUnsupported
  else do
    check (cfg.receiptMode = true) .notSupported
    check (debtValue ≠ 0) .badFarmShape
    let w ← stakeWeight cfg legs
    let s ← get
    let total ← add s.totalShares w
    modify fun s => { s with totalShares := total }

/-- The stamp that a close retires (:337-:345). -/
def retireStamp (w : Nat) (receipt : Word) : FarmM Unit := do
  let s ← get
  if cfg.receiptMode then do
    check (s.entryStamped receipt = false) .noLivePosition
    let product ← mul w (s.entryRps receipt)
    let debt ← sub s.totalRewardDebt product
    modify fun s => { s with
      totalRewardDebt := debt, entryRps := Function.update s.entryRps receipt 0,
      entryStamped := Function.update s.entryStamped receipt false }
  else check (receipt ≠ 0) .badFarmShape

/-- `onCdpClose` (:318). -/
def onCdpClose (principal repaid : Nat) (rateSnapshot : Word) (legs : List ConfidentialPool.CdpLeg) : FarmM Unit := do
  check (env.sender ≠ cfg.pool) .notPool
  check (principal ≠ 0 ∨ repaid ≠ 0) .badFarmShape
  let s ← get
  check (env.now < s.lockUntil) .locked
  accrue env.now
  let w ← stakeWeight cfg legs
  retireStamp cfg w rateSnapshot
  let s ← get
  check (s.totalShares < w) .badFarmShape
  modify fun s => { s with totalShares := s.totalShares - w }

end

/-! ## Calls -/

/-- The transactions that reach a farm. A receipt operation is what the guest emits for one receipt
(main.rs:4847-:4860, :4978-:4987, :5077-:5087): its leaf commits the shares, which are the one leg. -/
inductive Call
  | fund (out : Nat)
  | notifyRewardAmount (reward duration : U 256)
  | recover (recipient : Address) (paid : Bool)
  | setLockUntil (newLockUntil : Nat)
  | bond (r : Receipt)
  | harvest (r : Receipt) (rewardAsset : Word) (reward : U 64) (pos : 0 < reward.val)
  | unbond (r : Receipt)
  | position (legs : List ConfidentialPool.CdpLeg) (debtValue : Nat) (positionLeaf rateSnapshot : Word) (pos : positionLeaf ≠ receiptSentinel)

section

variable (K : Keccak) (cfg : Config)

/-- The debit of a harvest (ConfidentialPool.sol:2026-:2032). The pinned asset of a funded farm is its `REWARD_ASSET`
and the treasury of one that was never funded is empty. -/
def debitTreasury (rewardAsset : Word) (reward : Nat) : FarmM Unit := do
  let s ← get
  if rewardAsset ≠ cfg.debtAsset then do
    check (rewardAsset ≠ cfg.rewardAsset ∨ s.treasury < reward) .insufficientEscrow
    modify fun s => { s with treasury := s.treasury - reward }
  else pure ()

/-- The controller's part of a harvest. -/
def claim (env : Env) (r : Receipt) (rewardAsset : Word) (reward : U 64) : FarmM Unit :=
  onCdpMint cfg env [⟨rewardAsset, r.shares.val⟩] reward.val receiptSentinel (r.leaf K)

def Call.run (env : Env) : Call → FarmM Unit
  | .fund out => do
    let s ← get
    let total ← add s.treasury out
    modify fun s => { s with treasury := total }
  | .notifyRewardAmount reward duration => FarmController.notifyRewardAmount cfg env reward.val duration.val
  | .recover recipient paid => do
    let _ ← FarmController.recover cfg env recipient paid
    pure ()
  | .setLockUntil n => FarmController.setLockUntil cfg env n
  | .bond r => onCdpMint cfg env [⟨r.asset, r.shares.val⟩] 0 receiptSentinel (r.leaf K)
  | .harvest r rewardAsset reward _ => do
    debitTreasury cfg rewardAsset reward.val
    claim K cfg env r rewardAsset reward
  | .unbond r => onCdpClose cfg env 0 0 (r.leaf K) [⟨r.asset, r.shares.val⟩]
  | .position legs debtValue positionLeaf rateSnapshot _ => onCdpMint cfg env legs debtValue positionLeaf rateSnapshot

end

end FarmController

end Tacit
