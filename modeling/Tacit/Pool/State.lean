import Mathlib.Logic.Function.Basic
import Tacit.Evm
import Tacit.Lib.Frontier
import Tacit.Lib.Zoom
import Tacit.Pool.ReflectionLib
/-!
# The pool's storage and the world around it (contracts/src/ConfidentialPool.sol)

`Storage` is the contract's storage, `Deployment` what the constructor fixes, `Env` what one call finds
outside: its sender, value and time, the verifier's verdict, and what other contracts answer. Only
`createPair` and `advanceReflectionAncestry` run without the reentrancy guard, so an outgoing call
(`callOut`) may run these and nothing else of the pool before it returns.
-/
namespace Tacit

open Prog

namespace ConfidentialPool

/-- `MINIMUM_LIQUIDITY` (:150). -/
def minimumLiquidity : Nat := 1000

/-- `MAX_POOL_FEE_BPS` (:143). -/
def maxPoolFeeBps : Nat := 1000

/-- `ETH_DECIMALS` (:139). -/
def ethDecimals : Nat := 18

/-- `TREE_LEVELS` (:133). -/
def treeLevels : Nat := 32

/-- `AssetStore` (ReflectionLib.sol:53). -/
structure AssetStore where
  registered : Bool
  underlying : Address
  poolMinted : Bool
  decimals : Nat
  unitScale : Nat
  crossChainLink : Word

/-- An unwritten `_assets` slot. -/
def AssetStore.none : AssetStore := ⟨false, 0, false, 0, 0, 0⟩

/-- `Pool` (ReflectionLib.sol:64). -/
structure Pool where
  init : Bool
  assetA : Word
  assetB : Word
  reserveA : Nat
  reserveB : Nat
  feeBps : Nat
  totalShares : Nat

/-- An unwritten `pools` slot. -/
def Pool.none : Pool := ⟨false, 0, 0, 0, 0, 0, 0⟩

/-- A Merkle tree slot group: `nextLeafIndex`, `currentRoot`, `filledSubtrees`, `everKnownRoot` of the note
tree and their counterparts of the lock and position trees. -/
structure Tree where
  nextLeafIndex : Nat
  currentRoot : Word
  filledSubtrees : Nat → Word
  everKnownRoot : Word → Bool

/-- `bitcoinConsumed`, `bitcoinConsumedAt`, `bitcoinConsumedCount`; `crossOutCommitment`, `crossOutAt`,
`crossOutCount`. -/
structure Log where
  entry : Word → Word
  logAt : Nat → Word
  count : Nat

structure Storage where
  reflection : ReflectionLib.Storage
  notes : Tree
  lockTree : Tree
  cdpTree : Tree
  nullifierSpent : Word → Bool
  evmNullifiersSpent : Nat
  assets : Word → AssetStore
  localAssetOf : Word → Word
  escrow : Word → Nat
  pools : Word → Pool
  lpShares : Word → Address → Nat
  depositStatus : Word → Nat
  bridgeMinted : Word → Bool
  crossOuts : Log
  lockSpent : Word → Bool
  consumed : Log
  cbtcMinted : Word → Bool
  cdpPositionSpent : Word → Bool
  cdpPositionLeafInserted : Word → Bool
  harvestConsumed : Word → Bool
  farmRewardAsset : Address → Word
  farmTreasury : Address → Nat
  successor : Address
  handoffDigest : Word
  handoffTip : Word
  handoffConsumedCount : Nat
  handoffCrossOutCount : Nat

/-- The constructor's constants; a zero address is an absent contract. -/
structure Deployment where
  keccak : Keccak
  sha256 : Bytes → Word
  chainId : Nat
  self : Address
  bitcoinRelayVkey : Word
  reflectionConfirmations : Nat
  canonicalFactory : Address
  tethBitcoinLink : Word
  collateralEngine : Address
  publicAmm : Address
  lineageSteward : Address

/-- `CHAIN_BINDING` (:900). -/
def Deployment.chainBinding (D : Deployment) : Word := D.keccak.kn [beBytes 32 D.chainId, beBytes 20 D.self]

/-! ## Calls out of the pool -/

structure CdpLeg where
  asset : Word
  value : Nat

structure CdpMint where
  controller : Address
  debtAsset : Word
  debtValue : Nat
  positionLeaf : Word
  rateSnapshot : Nat
  legs : List CdpLeg

/-- `CdpClose` (:645) and `CdpLiquidate` (:654). -/
structure CdpClose where
  controller : Address
  debtValue : Nat
  repaid : Nat
  rateSnapshot : Nat
  positionNullifier : Word
  legs : List CdpLeg

structure CdpTopup where
  controller : Address
  debtValue : Nat
  rateSnapshot : Nat
  oldPositionNullifier : Word
  newPositionLeaf : Word
  oldLegs : List CdpLeg
  newLegs : List CdpLeg

/-- The outgoing calls that may change state elsewhere. -/
inductive Out
  | mint (token recipient : Address) (amount : Nat)
  | burn (token owner : Address) (amount : Nat)
  | transferFrom (token owner : Address) (amount : Nat)
  | transfer (token recipient : Address) (amount : Nat)
  | sendEth (recipient : Address) (amount : Nat)
  | deployCanonical (assetId : Word)
  | create2
  | onCdpMint (m : CdpMint)
  | onCdpTopup (t : CdpTopup)
  | onCdpClose (c : CdpClose)
  | onCdpLiquidate (q : CdpClose)

/-- The entry points without the reentrancy guard. -/
inductive Reentry
  | createPair (assetA assetB : Word) (feeBps rcptPrefix : Nat) (rcptX : Word) (protocolFeeBps : Nat)
  | advanceReflectionAncestry

/-- What a call finds outside the pool. A view that reverts answers `none`. -/
structure Env where
  sender : Address
  value : Nat
  timestamp : Nat
  /-- `SP1_VERIFIER.verifyProof` returned. -/
  verified : Bool
  headerRelay : Option Relay
  predecessor : Option ReflectionLib.Predecessor
  hasCode : Address → Bool
  succeeds : Out → Bool
  reenters : Out → List Reentry
  /-- What a `transferFrom` of the amount adds to the pool's balance. -/
  received : Address → Nat → Option Nat
  minter : Address → Option Address
  decimals : Address → Option Nat
  assetIdOf : Address → Option Word
  tokenOf : Word → Nat → Word → Address
  deployed : Word → Address
  created : Address
  rewardAsset : Address → Option Word
  outstandingReward : Address → Option Nat
  escrowSufficient : Word → Nat → Option Bool

variable (D : Deployment) (env : Env)

/-! ## Assets -/

/-- `_evmAssetId` (:2493): `sha256("tacit-evm-token-v1" ‖ chainid ‖ underlying)`. -/
def evmAssetId (underlying : Address) : Word :=
  D.sha256 (ascii "tacit-evm-token-v1" ++ beBytes 8 D.chainId ++ beBytes 20 underlying)

/-- `_resolveAsset` (:2521). -/
def resolveAsset (s : Storage) (assetId : Word) : Word :=
  if (s.assets assetId).registered then assetId
  else if s.localAssetOf assetId ≠ 0 then s.localAssetOf assetId else assetId

/-- `_rAsset` (:2530). -/
def rAsset (s : Storage) (assetId : Word) : AssetStore := s.assets (resolveAsset s assetId)

/-- `_poolId` (:1381). -/
def poolId (lo hi : Word) (feeBps : Nat) : Word :=
  D.keccak.kn [lo.bytes, hi.bytes, beBytes 32 (feeBps % 2 ^ 32)]

/-- `(lo, hi)` of a pair. -/
def sortPair (x y : Word) : Word × Word := if x < y then (x, y) else (y, x)

/-- The pool slot that `ensurePair` names (ReflectionLib.sol:596-:599). -/
def pairId (assetA assetB : Word) (feeBps rcptPrefix : Nat) (rcptX : Word) (protocolFeeBps : Nat) : Word :=
  let p := sortPair assetA assetB
  if protocolFeeBps = 0 then poolId D p.1 p.2 feeBps
  else D.keccak.kn [p.1.bytes, p.2.bytes, beBytes 32 feeBps, beBytes 1 rcptPrefix, rcptX.bytes, beBytes 32 protocolFeeBps]

/-- `ensurePair` (ReflectionLib.sol:578). -/
def ensurePair (assetA assetB : Word) (feeBps rcptPrefix : Nat) (rcptX : Word) (protocolFeeBps : Nat)
    (revertIfExists : Bool) : Prog Storage PoolError Word := do
  let s ← get
  let ra := resolveAsset s assetA
  let rb := resolveAsset s assetB
  check (ra = rb) .sameAsset
  check ((s.assets ra).registered = false ∨ (s.assets rb).registered = false) .notRegistered
  check (maxPoolFeeBps < feeBps ∨ 10000 ≤ protocolFeeBps) .feeTooHigh
  let id := pairId D assetA assetB feeBps rcptPrefix rcptX protocolFeeBps
  let p := sortPair assetA assetB
  if (s.pools id).init then
    check (revertIfExists = true) .poolExists
    return id
  else
    modify fun s => { s with pools := Function.update s.pools id ⟨true, p.1, p.2, 0, 0, feeBps, 0⟩ }
    return id

/-- `createPair` (:1325). -/
def createPair (assetA assetB : Word) (feeBps rcptPrefix : Nat) (rcptX : Word) (protocolFeeBps : Nat) :
    Prog Storage PoolError Word :=
  ensurePair D assetA assetB feeBps rcptPrefix rcptX protocolFeeBps true

/-- `advanceReflectionAncestry` (:1744). -/
def advanceReflectionAncestry : Prog Storage PoolError Unit := do
  let relay ← orThrow env.headerRelay .external
  zoom Storage.reflection (fun r s => { s with reflection := r })
    (ReflectionLib.advanceReflectionAncestry relay D.reflectionConfirmations)

/-- A reentrant call; its caller may catch a revert. -/
def reenter : Reentry → Prog Storage PoolError Unit
  | .createPair assetA assetB feeBps rcptPrefix rcptX protocolFeeBps => fun s =>
    .ok () ((createPair D assetA assetB feeBps rcptPrefix rcptX protocolFeeBps).call s)
  | .advanceReflectionAncestry => fun s => .ok () ((advanceReflectionAncestry D env).call s)

/-- An outgoing call that must succeed. -/
def callOut (c : Out) : Prog Storage PoolError Unit := do
  forEach (env.reenters c) (reenter D env)
  check (env.succeeds c = false) .external

end ConfidentialPool

end Tacit
