import Tacit.Pool.State
/-!
# The asset registry and the escrow (contracts/src/ConfidentialPool.sol, ReflectionLib.sol)

An asset is escrow-backed or minted and burned by the pool. `moveInUnderlying` and `payout` are the only ways
value crosses the pool's boundary: the first adds to the escrow of an escrow-backed asset what the pool has
received, the second takes from it what the pool sends.
-/
namespace Tacit

open Prog

namespace ConfidentialPool

variable (D : Deployment) (env : Env)

/-! ## Registration -/

/-- The checks on an external ERC20 (ReflectionLib.sol:516-:525). -/
def registerExternal (underlying : Address) (unitScale decimals : Nat) : Prog Storage PoolError Unit := do
  check (env.hasCode underlying = false) .notAContract
  check (env.minter underlying = some D.self) .canonicalAsset
  let d ← orThrow (env.decimals underlying) .external
  check (77 < d) .badDecimals
  check (decimals ≠ d ∨ unitScale ≠ 10 ^ (d - min d 8)) .badDecimals

/-- The cross-chain link of an asset (:529-:545). -/
def linkAsset (underlying : Address) (crossChainLink : Word) (poolMinted : Bool) : Prog Storage PoolError Unit := do
  onlyIf (underlying ≠ 0) do
    check (poolMinted = false) .crossChainEscrow
    check (env.assetIdOf underlying ≠ some crossChainLink) .crossChainTokenMismatch
  let s ← get
  check (s.localAssetOf crossChainLink ≠ 0) .crossChainLinkTaken
  modify fun s => { s with localAssetOf := Function.update s.localAssetOf crossChainLink crossChainLink }

/-- `register` (ReflectionLib.sol:504). -/
def register (underlying : Address) (unitScale : Nat) (crossChainLink : Word) (poolMinted : Bool) (decimals : Nat) :
    Prog Storage PoolError Word := do
  check (underlying = 0 ∧ poolMinted = true) .zeroAddress
  check (unitScale = 0) .amountNotAligned
  onlyIf (poolMinted = false ∧ underlying ≠ 0) (registerExternal D env underlying unitScale decimals)
  check (underlying = 0 ∧ (decimals ≠ ethDecimals ∨ unitScale ≠ 10 ^ 10)) .badDecimals
  let s ← get
  check ((s.assets (evmAssetId D underlying)).registered = true) .alreadyRegistered
  onlyIf (crossChainLink ≠ 0) (linkAsset env underlying crossChainLink poolMinted)
  let assetId := if crossChainLink ≠ 0 then crossChainLink else evmAssetId D underlying
  modify fun s => { s with
    assets := Function.update s.assets assetId ⟨true, underlying, poolMinted, decimals, unitScale, crossChainLink⟩ }
  return assetId

/-- `registerWrapped` (:1151). -/
def registerWrapped (underlying : Address) (unitScale : Nat) (crossChainLink : Word) (decimals : Nat) :
    Prog Storage PoolError Word := do
  check (underlying = 0 ∧ (crossChainLink ≠ 0 ∨ D.tethBitcoinLink ≠ 0)) .crossChainEscrow
  register D env underlying unitScale crossChainLink false decimals

/-- `registerWrappedAuto` (:1180). -/
def registerWrappedAuto (underlying : Address) (crossChainLink : Word) : Prog Storage PoolError Word := do
  let d ← orThrow (env.decimals underlying) .external
  check (77 < d) .badDecimals
  register D env underlying (10 ^ (d - min d 8)) crossChainLink false d

/-- `registerMinted` (:1205). -/
def registerMinted (canonicalErc20 : Address) (tacitDecimals : Nat) : Prog Storage PoolError Word := do
  let mtr ← orThrow (env.minter canonicalErc20) .external
  check (mtr ≠ D.self) .poolNotMinter
  check (ethDecimals < tacitDecimals) .badDecimals
  let d ← orThrow (env.decimals canonicalErc20) .external
  check (d ≠ ethDecimals) .badDecimals
  register D env canonicalErc20 (10 ^ (ethDecimals - tacitDecimals)) 0 true ethDecimals

/-- The token of a pool-minted asset (:988-:993, :2456-:2461): the factory's, deployed if it has none. -/
def canonicalToken (assetId cid : Word) : Prog Storage PoolError Address :=
  if env.tokenOf assetId ethDecimals cid ≠ 0 then pure (env.tokenOf assetId ethDecimals cid)
  else do
    callOut D env (.deployCanonical assetId)
    return env.deployed assetId

/-- The last step of `_autoRegisterFromMeta` (:2464-:2483): heal the entry of a registered token, else
register it if this pool is its minter. -/
def healOrRegister (m : ReflectionLib.AssetMeta) (token : Address) : Prog Storage PoolError Unit := do
  let s ← get
  let internalId := evmAssetId D token
  let unitScale := 10 ^ (ethDecimals - m.decimals)
  if (s.assets internalId).registered then
    modify fun s => { s with
      assets := Function.update s.assets internalId
        { s.assets internalId with unitScale := unitScale, crossChainLink := m.assetId }
      localAssetOf := Function.update s.localAssetOf m.assetId internalId }
  else do
    let mtr ← orThrow (env.minter token) .external
    onlyIf (mtr = D.self) do
      let _ ← register D env token unitScale m.assetId true ethDecimals
      return ()

/-- `_autoRegisterFromMeta` (:2445). -/
def autoRegisterFromMeta (m : ReflectionLib.AssetMeta) : Prog Storage PoolError Unit := do
  let s ← get
  onlyIf (¬ (D.canonicalFactory = 0 ∨ 8 < m.decimals ∨ m.tickerLen = 0 ∨ 16 < m.tickerLen ∨
      s.localAssetOf m.assetId ≠ 0)) do
    let token ← canonicalToken D env m.assetId m.cid
    healOrRegister D env m token

/-! ## Values -/

/-- `_ckU64` (:1416). -/
def ckU64 (v : Nat) : Prog Storage PoolError Unit := check (2 ^ 64 ≤ v) .valueOutOfRange

/-- `_amountToValue` (:2382); a modulus of zero reverts. -/
def amountToValue (amount unitScale : Nat) : Prog Storage PoolError Nat := do
  check (unitScale = 0) .arithmetic
  check (amount = 0 ∨ amount % unitScale ≠ 0) .amountNotAligned
  ckU64 (amount / unitScale)
  return amount / unitScale

/-- `_checkRecipient` (:2376). -/
def checkRecipient (recipient : Address) : Prog Storage PoolError Unit :=
  check (recipient = 0 ∨ recipient = D.self) .zeroAddress

/-- `escrow[assetId] += amount`. -/
def addEscrow (assetId : Word) (amount : Nat) : Prog Storage PoolError Unit := do
  let s ← get
  let e ← orThrow (uint256 (s.escrow assetId + amount)) .arithmetic
  modify fun s => { s with escrow := Function.update s.escrow assetId e }

/-- `moveInUnderlying` (ReflectionLib.sol:456). -/
def moveInUnderlying (a : AssetStore) (assetId : Word) (amount : Nat) : Prog Storage PoolError Unit :=
  if a.poolMinted then callOut D env (.burn a.underlying env.sender amount)
  else if a.underlying = 0 then addEscrow assetId amount
  else do
    callOut D env (.transferFrom a.underlying env.sender amount)
    let received ← orThrow (env.received a.underlying amount) .arithmetic
    check (received ≠ amount) .feeOnTransferUnsupported
    addEscrow assetId amount

/-- `_ingestPublic` (:1459). -/
def ingestPublic (assetId : Word) (amount : Nat) : Prog Storage PoolError Nat := do
  let s ← get
  let a := rAsset s assetId
  check (a.registered = false) .notRegistered
  let value ← amountToValue amount a.unitScale
  moveInUnderlying D env a assetId amount
  return value

/-- The escrow branch of `payout` (ReflectionLib.sol:434-:447). -/
def releaseEscrow (a : AssetStore) (assetId : Word) (recipient : Address) (amount : Nat) : Prog Storage PoolError Unit := do
  let s ← get
  check (s.escrow assetId < amount) .insufficientEscrow
  modify fun s => { s with escrow := Function.update s.escrow assetId (s.escrow assetId - amount) }
  callOut D env (if a.underlying = 0 then .sendEth recipient amount else .transfer a.underlying recipient amount)

/-- Mint or release (:431-:448). -/
def moveOut (a : AssetStore) (assetId : Word) (recipient : Address) (amount : Nat) : Prog Storage PoolError Unit :=
  if a.poolMinted then callOut D env (.mint a.underlying recipient amount)
  else releaseEscrow D env a assetId recipient amount

/-- `payout` (ReflectionLib.sol:421). -/
def sendOut (a : AssetStore) (assetId : Word) (recipient : Address) (value : Nat) : Prog Storage PoolError Nat := do
  let amount ← orThrow (uint256 (value * a.unitScale)) .arithmetic
  moveOut D env a assetId recipient amount
  return amount

/-- `_payout` (:2550). -/
def payout (assetId : Word) (recipient : Address) (value : Nat) : Prog Storage PoolError Nat :=
  if value = 0 then pure 0
  else do
    let s ← get
    let id := resolveAsset s assetId
    check ((s.assets id).registered = false) .notRegistered
    checkRecipient D recipient
    sendOut D env (s.assets id) id recipient value

/-- `_payoutCk` (:1441). -/
def payoutCk (assetId : Word) (recipient : Address) (value : Nat) : Prog Storage PoolError Unit := do
  ckU64 value
  let _ ← payout D env assetId recipient value
  return ()

end ConfidentialPool

end Tacit
