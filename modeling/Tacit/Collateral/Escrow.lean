import Tacit.Collateral.Policy
import Tacit.Lib.Zoom
/-!
# The cBTC escrow and the insurance reserve

The wstETH side of the engine: posts, claims, slashes, the margin call and the reserve. The token's record of the
engine's balance is the last field of the storage; a transfer moves exactly its amount or reverts, and one to the
engine itself moves nothing. What the pool says of a lock is read through `Flags`.
-/
namespace Tacit

open Prog

namespace CollateralEngine

/-- The pool's views of a lock outpoint (:23-:41). -/
structure Flags where
  minted : Word → Bool
  spent : Word → Bool
  redeemed : Word → Bool
  vBtc : Word → Nat

structure EscrowStorage where
  pool : Address
  policy : Policy
  escrowOf : Word → Address → Nat
  escrowTotal : Word → Nat
  escrowSlashed : Word → Bool
  escrowUnhealthySince : Word → Nat
  insuranceReserve : Nat
  wstEth : Nat

abbrev EscrowM := Prog EscrowStorage EngineError

section

variable (self : Address) (F : Flags) (env : Env)

/-- `safeTransferFrom` of the caller to the engine; `paid` is whether the token accepts. -/
def pull (amount : Nat) (paid : Bool) : EscrowM Unit := do
  check (paid = false) .transferFailed
  modify fun s => { s with wstEth := s.wstEth + amount }

/-- `safeTransfer` of the engine. -/
def push (recipient : Address) (amount : Nat) (paid : Bool) : EscrowM Unit := do
  let s ← get
  check (paid = false ∨ s.wstEth < amount) .transferFailed
  modify fun s => { s with wstEth := if recipient = self then s.wstEth else s.wstEth - amount }

/-- `checkEscrowHealth` (:657). -/
def checkEscrowHealth (outpoint : Word) : EscrowM Bool := do
  let s ← get
  if s.policy.escrowMaintenanceBps = 0 then pure true
  else do
    check (s.pool = 0) .badPool
    let w ← zoom EscrowStorage.policy (fun p s => { s with policy := p }) (wstEthForBtc env (F.vBtc outpoint))
    let a ← mul w s.policy.escrowMaintenanceBps
    pure (decide (a / 10000 ≤ s.escrowTotal outpoint))

/-- `postEscrow` (:671). -/
def postEscrow (outpoint : Word) (amount : Nat) (paid : Bool) : EscrowM Unit := do
  check (outpoint = 0 ∨ amount = 0) .badEscrow
  let s ← get
  check (s.escrowSlashed outpoint = true) .escrowLocked
  check (s.pool ≠ 0 ∧ (F.spent outpoint = true ∨ F.redeemed outpoint = true)) .escrowLocked
  let share ← add (s.escrowOf outpoint env.sender) amount
  let total ← add (s.escrowTotal outpoint) amount
  modify fun s => { s with
    escrowOf := Function.update s.escrowOf outpoint (Function.update (s.escrowOf outpoint) env.sender share),
    escrowTotal := Function.update s.escrowTotal outpoint total }
  pull amount paid

/-- `claimEscrow` (:694). -/
def claimEscrow (outpoint : Word) (paid : Bool) : EscrowM Unit := do
  check (outpoint = 0) .badEscrow
  let s ← get
  check (s.pool = 0) .badPool
  check (s.escrowSlashed outpoint = true) .escrowLocked
  check (F.minted outpoint = true ∧ F.redeemed outpoint = false) .escrowLocked
  let amt := s.escrowOf outpoint env.sender
  check (amt = 0) .nothingToRelease
  let total ← sub (s.escrowTotal outpoint) amt
  modify fun s => { s with
    escrowOf := Function.update s.escrowOf outpoint (Function.update (s.escrowOf outpoint) env.sender 0),
    escrowTotal := Function.update s.escrowTotal outpoint total }
  push self env.sender amt paid

/-- `_slashToReserve` (:729). -/
def slashToReserve (outpoint : Word) : EscrowM Unit := do
  let s ← get
  let amt := s.escrowTotal outpoint
  check (amt = 0) .nothingToSlash
  let reserve ← add s.insuranceReserve amt
  modify fun s => { s with
    escrowTotal := Function.update s.escrowTotal outpoint 0,
    escrowSlashed := Function.update s.escrowSlashed outpoint true, insuranceReserve := reserve }

/-- `slash` (:717). -/
def slash (outpoint : Word) : EscrowM Unit := do
  check (outpoint = 0) .badEscrow
  let s ← get
  check (s.pool = 0) .badPool
  check (s.escrowSlashed outpoint = true) .escrowLocked
  check (F.minted outpoint = false ∨ F.spent outpoint = false) .nothingToSlash
  slashToReserve outpoint

/-- `onlyEnforcementModule` (:326). -/
def onlyEnforcementModule : EscrowM Unit := do
  let s ← get
  check (s.policy.escrowEnforcementModule = 0 ∨ env.sender ≠ s.policy.escrowEnforcementModule) .notEnforcementModule

/-- `_requireEscrowNotice` (:776). -/
def requireEscrowNotice : EscrowM Unit := do
  let s ← get
  let policyEnd ← add s.policy.lastEscrowPolicyChangeAt minEscrowGraceWindow
  check (env.now < policyEnd) .graceNotElapsed
  let feedEnd ← add s.policy.lastFeedChangeAt feedChangeLiqGrace
  check (env.now < feedEnd) .graceNotElapsed

/-- The checks that a flag and its enforcement share (:745-:754, :802-:810). -/
def requireUnhealthy (outpoint : Word) : EscrowM Unit := do
  let s ← get
  check (s.policy.escrowMaintenanceBps = 0) .enforcementDisabled
  check (s.pool = 0) .badPool
  requireEscrowNotice env
  check (s.escrowSlashed outpoint = true ∨ F.minted outpoint = false ∨ F.redeemed outpoint = true ∨
    F.spent outpoint = true) .escrowLocked
  let healthy ← checkEscrowHealth F env outpoint
  check (healthy = true) .escrowHealthy

/-- `flagEscrowUnhealthy` (:744). -/
def flagEscrowUnhealthy (outpoint : Word) : EscrowM Unit := do
  onlyEnforcementModule env
  requireUnhealthy F env outpoint
  modify fun s => { s with
    escrowUnhealthySince := if s.escrowUnhealthySince outpoint = 0
      then Function.update s.escrowUnhealthySince outpoint env.now else s.escrowUnhealthySince }

/-- `clearEscrowFlag` (:764). -/
def clearEscrowFlag (outpoint : Word) : EscrowM Unit := do
  onlyEnforcementModule env
  modify fun s => { s with escrowUnhealthySince := Function.update s.escrowUnhealthySince outpoint 0 }

/-- `clearEscrowFlagIfHealthy` (:789). -/
def clearEscrowFlagIfHealthy (outpoint : Word) : EscrowM Unit := do
  let s ← get
  if s.escrowUnhealthySince outpoint = 0 then pure ()
  else do
    let healthy ← checkEscrowHealth F env outpoint
    check (healthy = false) .escrowStillUnhealthy
    modify fun s => { s with escrowUnhealthySince := Function.update s.escrowUnhealthySince outpoint 0 }

/-- `enforceEscrowToReserve` (:801). -/
def enforceEscrowToReserve (outpoint : Word) : EscrowM Unit := do
  onlyEnforcementModule env
  requireUnhealthy F env outpoint
  let s ← get
  let since := s.escrowUnhealthySince outpoint
  check (since = 0) .graceNotElapsed
  let graceEnd ← add since s.policy.escrowGraceWindow
  check (env.now < graceEnd) .graceNotElapsed
  let floorEnd ← add since minEscrowGraceWindow
  check (env.now < floorEnd) .graceNotElapsed
  slashToReserve outpoint

/-- `fundInsurance` (:1185). -/
def fundInsurance (amount : Nat) (paid : Bool) : EscrowM Unit := do
  check (amount = 0) .badAmount
  let s ← get
  let reserve ← add s.insuranceReserve amount
  modify fun s => { s with insuranceReserve := reserve }
  pull amount paid

/-- `drawInsurance` (:1196), with `_drawInsurance` (:1208). -/
def drawInsurance (amount : Nat) (recipient : Address) (paid : Bool) : EscrowM Unit := do
  onlyOwner env
  check (amount = 0) .badAmount
  check (recipient = 0) .zeroRecipient
  let s ← get
  check (s.insuranceReserve < amount) .insufficientReserve
  modify fun s => { s with insuranceReserve := s.insuranceReserve - amount }
  push self recipient amount paid

/-- `drawInsuranceFor` (:1202). -/
def drawInsuranceFor (purpose : Word) (amount : Nat) (recipient : Address) (paid : Bool) : EscrowM Unit := do
  onlyOwner env
  check (purpose = 0) .badPurpose
  drawInsurance self env amount recipient paid

/-- `setPool` (:365), on this part of the storage. -/
def setEscrowPool (pool : Address) (binds : Bool) : EscrowM Unit := do
  onlyOwner env
  let s ← get
  check (s.pool ≠ 0) .poolAlreadySet
  check (pool = 0 ∨ env.hasCode pool = false) .badPool
  check (binds = false) .badPool
  modify fun s => { s with pool := pool }

end

inductive EscrowCall
  | postEscrow (outpoint : Word) (amount : Nat) (paid : Bool)
  | claimEscrow (outpoint : Word) (paid : Bool)
  | slash (outpoint : Word)
  | flagEscrowUnhealthy (outpoint : Word)
  | clearEscrowFlag (outpoint : Word)
  | clearEscrowFlagIfHealthy (outpoint : Word)
  | enforceEscrowToReserve (outpoint : Word)
  | fundInsurance (amount : Nat) (paid : Bool)
  | drawInsurance (amount : Nat) (recipient : Address) (paid : Bool)
  | drawInsuranceFor (purpose : Word) (amount : Nat) (recipient : Address) (paid : Bool)
  | setPool (pool : Address) (binds : Bool)
  | knob (k : Knob)

def EscrowCall.run (self : Address) (F : Flags) (env : Env) : EscrowCall → EscrowM Unit
  | .postEscrow outpoint amount paid => CollateralEngine.postEscrow F env outpoint amount paid
  | .claimEscrow outpoint paid => CollateralEngine.claimEscrow self F env outpoint paid
  | .slash outpoint => CollateralEngine.slash F outpoint
  | .flagEscrowUnhealthy outpoint => CollateralEngine.flagEscrowUnhealthy F env outpoint
  | .clearEscrowFlag outpoint => CollateralEngine.clearEscrowFlag env outpoint
  | .clearEscrowFlagIfHealthy outpoint => CollateralEngine.clearEscrowFlagIfHealthy F env outpoint
  | .enforceEscrowToReserve outpoint => CollateralEngine.enforceEscrowToReserve F env outpoint
  | .fundInsurance amount paid => CollateralEngine.fundInsurance amount paid
  | .drawInsurance amount recipient paid => CollateralEngine.drawInsurance self env amount recipient paid
  | .drawInsuranceFor purpose amount recipient paid => CollateralEngine.drawInsuranceFor self env purpose amount recipient paid
  | .setPool pool binds => setEscrowPool env pool binds
  | .knob k => zoom EscrowStorage.policy (fun p s => { s with policy := p }) (k.run env)

/-- The escrow side of a fresh engine. -/
def EscrowStorage.construct (pool : Address) : EscrowStorage where
  pool := pool
  policy := Policy.initial
  escrowOf _ _ := 0
  escrowTotal _ := 0
  escrowSlashed _ := false
  escrowUnhealthySince _ := 0
  insuranceReserve := 0
  wstEth := 0

end CollateralEngine

end Tacit
