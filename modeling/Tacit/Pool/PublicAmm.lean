import Tacit.Pool.Assets
/-!
# The public AMM applicators (contracts/src/ConfidentialPool.sol :1472-:1615)

Public liquidity and swaps against the same reserves the shielded path uses. The periphery quotes; each
applicator takes the inputs in, checks the quote against the reserves and pays out. `unchecked` arithmetic is
written out modulo `2^256`.
-/
namespace Tacit

open Prog

namespace ConfidentialPool

/-- `a + b` in an `unchecked` block. -/
def wrapAdd (a b : Nat) : Nat := (a + b) % 2 ^ 256

/-- `a * b` in an `unchecked` block. -/
def wrapMul (a b : Nat) : Nat := (a * b) % 2 ^ 256

/-- `a - b` in an `unchecked` block. -/
def wrapSub (a b : Nat) : Nat := (a + (2 ^ 256 - b % 2 ^ 256)) % 2 ^ 256

variable (D : Deployment) (env : Env)

/-- `onlyPublicAmm` (:258). -/
def onlyPublicAmm : Prog Storage PoolError Unit := check (env.sender ≠ D.publicAmm) .notAuthorized

/-- `notRetired` (:1120). -/
def notRetired : Prog Storage PoolError Unit := do
  let s ← get
  check (s.successor ≠ 0) .poolRetired

/-- `_isNativeEth` (:1410). -/
def isNativeEth (s : Storage) (assetId : Word) : Bool := (rAsset s assetId).underlying == 0

def setPool (id : Word) (p : Pool) : Prog Storage PoolError Unit :=
  modify fun s => { s with pools := Function.update s.pools id p }

/-- What `applyAddLiquidity` gives back. -/
structure Added where
  pool : Pool
  sharesMinted : Nat
  refundLo : Nat
  refundHi : Nat

/-- `applyAddLiquidity` (ReflectionLib.sol:625). -/
def applyAddLiquidity (p : Pool) (vLo vHi minted addLo addHi : Nat) : Except PoolError Added :=
  if p.totalShares ≠ 0 then do
    refuse (minted = 0 ∨ vLo < addLo ∨ vHi < addHi) .insufficientLiquidity
    let mA ← need (uint256 (minted * p.reserveA)) .arithmetic
    let aS ← need (uint256 (addLo * p.totalShares)) .arithmetic
    refuse (aS < mA) .insufficientLiquidity
    let mB ← need (uint256 (minted * p.reserveB)) .arithmetic
    let bS ← need (uint256 (addHi * p.totalShares)) .arithmetic
    refuse (bS < mB) .insufficientLiquidity
    let reserveA ← need (uint256 (p.reserveA + addLo)) .arithmetic
    let reserveB ← need (uint256 (p.reserveB + addHi)) .arithmetic
    let totalShares ← need (uint256 (p.totalShares + minted)) .arithmetic
    refuse (2 ^ 64 ≤ reserveA ∨ 2 ^ 64 ≤ reserveB ∨ 2 ^ 64 ≤ totalShares) .valueOutOfRange
    return ⟨{ p with reserveA, reserveB, totalShares }, minted, vLo - addLo, vHi - addHi⟩
  else do
    let mm ← need (uint256 (minted * minted)) .arithmetic
    let vv ← need (uint256 (vLo * vHi)) .arithmetic
    refuse (vv < mm ∨ minted ≤ minimumLiquidity) .insufficientLiquidity
    return ⟨{ p with reserveA := vLo, reserveB := vHi, totalShares := minted }, minted - minimumLiquidity, 0, 0⟩

/-- `if (refund != 0) _payout(asset, to, refund)`. -/
def refund (assetId : Word) (recipient : Address) (value : Nat) : Prog Storage PoolError Unit :=
  onlyIf (value ≠ 0) do
    let _ ← payout D env assetId recipient value
    return ()

/-- `lpShares[id][owner] += shares`. -/
def creditShares (id : Word) (owner : Address) (shares : Nat) : Prog Storage PoolError Unit := do
  let s ← get
  let total ← orThrow (uint256 (s.lpShares id owner + shares)) .arithmetic
  modify fun s => { s with lpShares := Function.update s.lpShares id (Function.update (s.lpShares id) owner total) }

/-- The native ETH an add must carry (:1490). -/
def expectedEth (s : Storage) (assetLo assetHi : Word) (amtLo amtHi : Nat) : Nat :=
  (if isNativeEth s assetLo then amtLo else 0) + (if isNativeEth s assetHi then amtHi else 0)

/-- `applyPublicAddLiquidity` (:1472). -/
def applyPublicAddLiquidity (assetLo assetHi : Word) (feeBps amtLo amtHi minted addLo addHi : Nat)
    (recipient : Address) : Prog Storage PoolError Nat := do
  onlyPublicAmm D env
  notRetired
  check (assetHi ≤ assetLo) .unsortedLegs
  let id ← ensurePair D assetLo assetHi feeBps 0 0 0 false
  let s ← get
  let eth ← orThrow (uint256 (expectedEth s assetLo assetHi amtLo amtHi)) .arithmetic
  check (env.value ≠ eth) .ethValueMismatch
  let vLo ← ingestPublic D env assetLo amtLo
  let vHi ← ingestPublic D env assetHi amtHi
  let s ← get
  let added ← ofExcept (applyAddLiquidity (s.pools id) vLo vHi minted addLo addHi)
  setPool id added.pool
  refund D env assetLo recipient added.refundLo
  refund D env assetHi recipient added.refundHi
  creditShares id recipient added.sharesMinted
  return added.sharesMinted

/-- The reserves and shares after a public removal and its two values (:1528-:1536). The guard adds without a
check, so it does not see a `shares` within `MINIMUM_LIQUIDITY` of `2^256`. -/
def applyRemoveLiquidity (p : Pool) (shares : Nat) : Except PoolError (Pool × Nat × Nat) := do
  refuse (p.totalShares < wrapAdd shares minimumLiquidity) .insufficientLiquidity
  refuse (p.totalShares = 0) .arithmetic
  let vLo := wrapMul p.reserveA shares / p.totalShares
  let vHi := wrapMul p.reserveB shares / p.totalShares
  return ({ p with totalShares := wrapSub p.totalShares shares, reserveA := wrapSub p.reserveA vLo,
                   reserveB := wrapSub p.reserveB vHi }, vLo, vHi)

/-- `applyPublicRemoveLiquidity` (:1510). -/
def applyPublicRemoveLiquidity (assetA assetB : Word) (feeBps shares : Nat) (owner recipient : Address) :
    Prog Storage PoolError (Nat × Nat) := do
  onlyPublicAmm D env
  let pair := sortPair assetA assetB
  let id := poolId D pair.1 pair.2 feeBps
  let s ← get
  let bal := s.lpShares id owner
  check (bal < shares) .insufficientLiquidity
  let removed ← ofExcept (applyRemoveLiquidity (s.pools id) shares)
  modify fun s => { s with
    lpShares := Function.update s.lpShares id (Function.update (s.lpShares id) owner (bal - shares)) }
  setPool id removed.1
  let amountLo ← payout D env pair.1 recipient removed.2.1
  let amountHi ← payout D env pair.2 recipient removed.2.2
  return (amountLo, amountHi)

/-- The reserves after a public swap (:1558-:1578). -/
def applySwap (p : Pool) (inIsLo : Bool) (vIn vOut : Nat) : Except PoolError Pool := do
  let reserveOut := if inIsLo then p.reserveB else p.reserveA
  refuse (vOut = 0 ∨ reserveOut ≤ vOut) .insufficientLiquidity
  let kPre := wrapMul p.reserveA p.reserveB
  let reserveA := if inIsLo then wrapAdd p.reserveA vIn else wrapSub p.reserveA vOut
  let reserveB := if inIsLo then wrapSub p.reserveB vOut else wrapAdd p.reserveB vIn
  refuse (wrapMul reserveA reserveB < kPre) .constantProductDecreased
  refuse (2 ^ 64 ≤ reserveA ∨ 2 ^ 64 ≤ reserveB) .valueOutOfRange
  return { p with reserveA, reserveB }

/-- `applyPublicSwap` (:1545). -/
def applyPublicSwap (assetIn assetOut : Word) (feeBps amountIn vOut : Nat) (recipient : Address) :
    Prog Storage PoolError Nat := do
  onlyPublicAmm D env
  notRetired
  let pair := sortPair assetIn assetOut
  let id := poolId D pair.1 pair.2 feeBps
  let s ← get
  check ((s.pools id).init = false) .poolNotInit
  check (env.value ≠ if isNativeEth s assetIn then amountIn else 0) .ethValueMismatch
  let vIn ← ingestPublic D env assetIn amountIn
  let s ← get
  let p ← ofExcept (applySwap (s.pools id) (assetIn = pair.1) vIn vOut)
  setPool id p
  payout D env assetOut recipient vOut

/-! ## Deposits -/

/-- `_hash3` (:2664). -/
def hash3 (a : Word) (b : Nat) (c : Word) : Word := D.keccak.kn [a.bytes, beBytes 32 b, c.bytes]

/-- `_registerDeposit` (:2601). -/
def registerDeposit (depositId : Word) : Prog Storage PoolError Unit := do
  let s ← get
  check (s.depositStatus depositId ≠ 0) .depositExists
  modify fun s => { s with depositStatus := Function.update s.depositStatus depositId 1 }

/-- `wrap` (:1270). -/
def wrap (assetId : Word) (amount : Nat) (commit : Word) : Prog Storage PoolError Unit := do
  let s ← get
  let a := rAsset s assetId
  check (a.registered = false) .notRegistered
  check (a.poolMinted = false ∧ s.successor ≠ 0) .poolRetired
  let value ← amountToValue amount a.unitScale
  registerDeposit (hash3 D assetId value commit)
  check (env.value ≠ if a.underlying = 0 then amount else 0) .ethValueMismatch
  moveInUnderlying D env a assetId amount

/-- `_lpShareId` (:1585). -/
def lpShareId (poolId : Word) : Word := D.keccak.kn [poolId.bytes, ascii "lp"]

/-- `shieldShares` (:1603). -/
def shieldShares (id : Word) (shares : Nat) (commit : Word) : Prog Storage PoolError Word := do
  let s ← get
  check ((s.pools id).init = false) .poolNotInit
  let bal := s.lpShares id env.sender
  check (shares = 0 ∨ bal < shares) .insufficientLiquidity
  ckU64 shares
  modify fun s => { s with
    lpShares := Function.update s.lpShares id (Function.update (s.lpShares id) env.sender (bal - shares)) }
  let depositId := hash3 D (lpShareId D id) shares commit
  registerDeposit depositId
  return depositId

/-! ## Farm treasuries -/

/-- The sweep of `farmEscrow` (:1632-:1646). -/
def farmSweep (rewardAsset : Word) (recipient : Address) : Prog Storage PoolError Nat := do
  let s ← get
  let pinned := s.farmRewardAsset env.sender
  check (pinned = 0 ∨ pinned ≠ rewardAsset) .notRegistered
  checkRecipient D recipient
  let reserve ← orThrow (env.outstandingReward env.sender) .external
  -- `out > reserve ? out - reserve : 0` of the treasury
  let out := s.farmTreasury env.sender - reserve
  modify fun s => { s with
    farmTreasury := Function.update s.farmTreasury env.sender (s.farmTreasury env.sender - out) }
  let _ ← payout D env rewardAsset recipient out
  return out

/-- The reward asset of a farm, pinned on first funding (:1653-:1664). -/
def pinReward (controller : Address) (rewardAsset : Word) : Prog Storage PoolError Unit := do
  let s ← get
  let pinned := s.farmRewardAsset controller
  if pinned = 0 then do
    let a := s.assets rewardAsset
    check (a.poolMinted = true ∨ a.underlying = 0) .notRegistered
    let reward ← orThrow (env.rewardAsset controller) .external
    check (rewardAsset ≠ reward) .notRegistered
    modify fun s => { s with farmRewardAsset := Function.update s.farmRewardAsset controller rewardAsset }
  else check (pinned ≠ rewardAsset) .notRegistered

/-- `farmEscrow` (:1627). -/
def farmEscrow (controller : Address) (rewardAsset : Word) (amount : Nat) (recipient : Address) :
    Prog Storage PoolError Nat :=
  if amount = 0 then farmSweep D env rewardAsset recipient
  else do
    notRetired
    checkRecipient D controller
    pinReward env controller rewardAsset
    let out ← ingestPublic D env rewardAsset amount
    let s ← get
    let total ← orThrow (uint256 (s.farmTreasury controller + out)) .arithmetic
    modify fun s => { s with farmTreasury := Function.update s.farmTreasury controller total }
    return out

end ConfidentialPool

end Tacit
