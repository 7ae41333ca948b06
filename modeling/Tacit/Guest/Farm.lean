import Tacit.Guest.Batch
/-!
# Farm positions on the Ethereum lane (confidential/src/main.rs :2568-:2735, :4774-:5088)

A bond spends share notes, or adds liquidity, and appends a receipt leaf that its controller stamps. A harvest shows the
leaf and a signature of its owner. An unbond does too, spends the receipt's nullifier and mints the shares again. Only the
handlers that spend check the owner: through its signature.
-/
namespace Tacit

namespace SettleGuest

/-- A controller's address as the farm of a receipt. -/
def controller32 (controller : U 160) : Word := wordOfNat controller.val

/-- The witness of one bonded note. -/
structure BondLeg where
  note : Opening
  value : U 64
  index : U 64
  path : List Word
  legAuth : Word
  nk : Word
  absence : Absence

structure FarmBond where
  controller : U 160
  owner : Word
  nonce : Word
  lpAsset : Word
  legs : List BondLeg
  sigs : List Bytes

/-- The witness of one side of the liquidity. -/
structure LpSide where
  note : Opening
  owner : Word
  index : U 64
  path : List Word
  amount : U 64
  nk : Word
  absence : Absence

structure LpBond where
  controller : U 160
  owner : Word
  bondNonce : Word
  assetA : Word
  assetB : Word
  feeBps : U 32
  protocolFeeBps : U 32
  protocolFeeRecipient : Bytes
  reserveAPre : U 64
  reserveBPre : U 64
  sharesPre : U 64
  sideA : LpSide
  sideB : LpSide
  opDeadline : U 64
  fee : U 64

/-- The witness of a harvest; the receipt is what it claims to have bonded. -/
structure FarmHarvest where
  controller : U 160
  asset : Word
  shares : U 64
  owner : Word
  nonce : Word
  harvestNonce : Word
  reward : U 64
  fee : U 64
  index : U 64
  path : List Word
  absence : Absence
  rewardAsset : Word
  rewardOwner : Word
  note : Opening
  ownerSig : Bytes

structure FarmUnbond where
  controller : U 160
  asset : Word
  shares : U 64
  owner : Word
  nonce : Word
  fee : U 64
  index : U 64
  path : List Word
  absence : Absence
  releaseOwner : Word
  note : Opening
  ownerSig : Bytes

def FarmHarvest.receipt (w : FarmHarvest) : Receipt := ⟨controller32 w.controller, w.asset, w.shares, w.owner, w.nonce⟩

def FarmUnbond.receipt (w : FarmUnbond) : Receipt := ⟨controller32 w.controller, w.asset, w.shares, w.owner, w.nonce⟩

/-- `FeePayment`, unless the fee is zero. -/
def relayFee (asset : Word) (fee : U 64) : List ConfidentialPool.FeePayment :=
  if fee.val = 0 then [] else [⟨asset, fee.val⟩]

/-- The `CdpMint` of a bond: the sentinel leaf, no debt, and the receipt leaf in the snapshot. -/
def bondMint (K : Keccak) (controller : U 160) (r : Receipt) : ConfidentialPool.CdpMint where
  controller := controller.val
  debtAsset := cdpDebtAssetId K controller.val
  debtValue := 0
  positionLeaf := wordOfNat 1
  rateSnapshot := uintOfWord (r.leaf K)
  legs := [⟨r.asset, r.shares.val⟩]

/-- The `CdpMint` of a harvest. -/
def harvestMint (K : Keccak) (controller : U 160) (r : Receipt) (rewardAsset : Word) (reward : U 64) :
    ConfidentialPool.CdpMint where
  controller := controller.val
  debtAsset := cdpDebtAssetId K controller.val
  debtValue := reward.val
  positionLeaf := wordOfNat 1
  rateSnapshot := uintOfWord (r.leaf K)
  legs := [⟨rewardAsset, r.shares.val⟩]

/-- The `CdpClose` of an unbond. -/
def unbondClose (K : Keccak) (controller : U 160) (r : Receipt) : ConfidentialPool.CdpClose where
  controller := controller.val
  debtValue := 0
  repaid := 0
  rateSnapshot := uintOfWord (r.leaf K)
  positionNullifier := r.nullifier K
  legs := [⟨r.asset, r.shares.val⟩]

variable (C : Proofs) (H : Header)

/-! ## Bonds -/

/-- The loop body of `OP_FARM_BOND` (:4806-:4843). -/
def bondLeg (w : FarmBond) (l : BondLeg) : Option Input := do
  guard (0 < l.value.val)
  let input ← inputLeafAuthed C H w.lpAsset l.note.cx l.note.cy l.legAuth l.nk
  guard (keccakMerkleVerify C.toKeccak input.leaf l.index.val l.path H.spendRoot)
  guard (l.note.opens C l.value.val (intentContext C.toKeccak "tacit-farm-bond-leg-v1" H.chainBinding w.lpAsset w.nonce
    [(l.note.cx, l.note.cy, w.owner), (controller32 w.controller, w.nonce, w.owner)]
    [l.value.val, l.index.val, w.legs.length]))
  guard (absent C H input.nu l.absence)
  return input

/-- `OP_FARM_BOND` (:4774). -/
def farmBond (w : FarmBond) : Option (Receipt × Effects) := do
  guard (0 < w.legs.length ∧ w.legs.length ≤ maxItemsPerOp)
  guard (H.spendRoot ≠ 0)
  let inputs ← w.legs.mapM (bondLeg C H w)
  let shares ← U.ofNat? 64 (w.legs.map fun l => l.value.val).sum
  let r : Receipt := ⟨controller32 w.controller, w.lpAsset, shares, w.owner, w.nonce⟩
  guard (verifyBtcInputAuths C H inputs w.sigs (Word.ofBytes (ascii "tacit.op.farm_bond")) [r.leaf C.toKeccak] 0 0)
  return (r, {
    nullifiers := inputs.map Input.nu, sources := consumedSources H inputs
    leaves := [r.leaf C.toKeccak], cdpMints := [bondMint C.toKeccak w.controller r] })

/-- Shares and reserves after an addition (:2642-:2665). -/
structure Addition where
  shares : Nat
  reserveAPost : Nat
  reserveBPost : Nat
  sharesPost : Nat

/-- `d_shares` and the posts (:2636-:2666); `addA` is net of the fee. -/
def addLiquidity (reserveA reserveB sharesPre addA dB : U 64) : Option Addition :=
  if sharesPre = 0 then do
    guard (reserveA = 0 ∧ reserveB = 0)
    guard (0 < addA.val ∧ 0 < dB.val)
    let total := isqrt (addA.val * dB.val)
    guard (ConfidentialPool.minimumLiquidity < total)
    return ⟨total - ConfidentialPool.minimumLiquidity, addA.val, dB.val, total⟩
  else do
    guard (0 < reserveA.val ∧ 0 < reserveB.val)
    let shares := lpAddShares sharesPre addA dB reserveA reserveB
    guard (0 < shares)
    guard (reserveA.val + addA.val < 2 ^ 64 ∧ reserveB.val + dB.val < 2 ^ 64 ∧ sharesPre.val + shares < 2 ^ 64)
    return ⟨shares, reserveA.val + addA.val, reserveB.val + dB.val, sharesPre.val + shares⟩

/-- A side of the liquidity is spent (:2689-:2708). -/
def spendSide (asset context : Word) (l : LpSide) : Option Word := do
  let lf := leaf C.toKeccak asset l.note.cx l.note.cy l.owner
  guard (keccakMerkleVerify C.toKeccak lf l.index.val l.path H.spendRoot)
  let nu ← nativeNu C.toKeccak l.owner l.nk lf
  guard (absent C H nu l.absence)
  guard (l.note.opens C l.amount.val context)
  return nu

/-- `OP_LP_BOND` (:2568). -/
def lpBond (w : LpBond) : Option (Receipt × Effects) := do
  guard (w.feeBps.val ≤ 1000)
  guard (w.protocolFeeBps.val < 10000)
  guard (w.protocolFeeBps.val = 0 ∨ (C.decompress w.protocolFeeRecipient).isSome)
  let pid := poolIdWithProtocolFee C.toKeccak w.assetA w.assetB w.feeBps.val w.protocolFeeRecipient w.protocolFeeBps.val
  guard (beBytesLte w.assetA w.assetB = true ∧ w.assetA ≠ w.assetB)
  let lpAsset := lpShareId C.toKeccak pid
  guard (feeIsQuantized w.fee.val)
  guard (w.fee.val < w.sideA.amount.val)
  let addA ← U.checkedSub w.sideA.amount w.fee
  let add ← addLiquidity w.reserveAPre w.reserveBPre w.sharesPre addA w.sideB.amount
  let shares ← U.ofNat? 64 add.shares
  let context := intentContext C.toKeccak "tacit-lp-bond-v1" H.chainBinding w.assetA w.assetB
    [(w.sideA.note.cx, w.sideA.note.cy, w.sideA.owner), (w.sideB.note.cx, w.sideB.note.cy, w.sideB.owner),
      (controller32 w.controller, w.bondNonce, w.owner), (lpAsset, pid, w.owner)]
    [w.sideA.amount.val, w.sideB.amount.val, shares.val, w.opDeadline.val, w.fee.val]
  guard (H.spendRoot ≠ 0)
  let nuA ← spendSide C H w.assetA context w.sideA
  let nuB ← spendSide C H w.assetB context w.sideB
  let r : Receipt := ⟨controller32 w.controller, lpAsset, shares, w.owner, w.bondNonce⟩
  return (r, {
    nullifiers := [nuA, nuB], leaves := [r.leaf C.toKeccak], fees := relayFee w.assetA w.fee
    liquidity := [⟨pid, w.reserveAPre.val, w.reserveBPre.val, w.sharesPre.val, add.reserveAPost, add.reserveBPost, add.sharesPost⟩]
    deadlines := [w.opDeadline.val], cdpMints := [bondMint C.toKeccak w.controller r] })

/-! ## Harvests and unbonds -/

/-- `OP_FARM_HARVEST` (:4869). -/
def farmHarvest (w : FarmHarvest) : Option Effects := do
  guard (0 < w.shares.val)
  guard (0 < w.reward.val)
  guard (feeIsQuantized w.fee.val)
  guard (w.fee.val < w.reward.val)
  let receipt := w.receipt.leaf C.toKeccak
  guard (H.spendRoot ≠ 0)
  guard (keccakMerkleVerify C.toKeccak receipt w.index.val w.path H.spendRoot)
  guard (absent C H (w.receipt.nullifier C.toKeccak) w.absence)
  guard (w.note.opens C (w.reward.val - w.fee.val) (intentContext C.toKeccak "tacit-farm-harvest-reward-v1" H.chainBinding
    w.rewardAsset w.harvestNonce [(w.note.cx, w.note.cy, w.rewardOwner)] [w.reward.val, w.fee.val]))
  guard (C.bip340Verify w.ownerSig (evmLpHarvestOwnerMsg C.toKeccak (controller32 w.controller) receipt w.reward.val w.fee.val
    w.harvestNonce w.rewardAsset w.note.cx w.note.cy w.rewardOwner) w.owner)
  let rewardLeaf := leaf C.toKeccak w.rewardAsset w.note.cx w.note.cy w.rewardOwner
  return {
    leaves := [rewardLeaf], fees := relayFee w.rewardAsset w.fee
    harvestActionIds := [evmHarvestActionId C.toKeccak H.chainBinding (controller32 w.controller) receipt w.harvestNonce
      w.rewardAsset w.reward.val w.fee.val rewardLeaf]
    cdpMints := [harvestMint C.toKeccak w.controller w.receipt w.rewardAsset w.reward] }

/-- `OP_FARM_UNBOND` (:4992). -/
def farmUnbond (w : FarmUnbond) : Option Effects := do
  guard (feeIsQuantized w.fee.val)
  guard (w.fee.val < w.shares.val)
  let receipt := w.receipt.leaf C.toKeccak
  guard (H.spendRoot ≠ 0)
  guard (keccakMerkleVerify C.toKeccak receipt w.index.val w.path H.spendRoot)
  let nu := w.receipt.nullifier C.toKeccak
  guard (absent C H nu w.absence)
  guard (w.note.opens C (w.shares.val - w.fee.val) (intentContext C.toKeccak "tacit-farm-unbond-release-v1" H.chainBinding
    w.asset w.nonce [(w.note.cx, w.note.cy, w.releaseOwner)] [w.shares.val, w.fee.val]))
  guard (C.bip340Verify w.ownerSig (evmLpUnbondOwnerMsg C.toKeccak (controller32 w.controller) receipt w.shares.val w.fee.val
    w.asset w.note.cx w.note.cy w.releaseOwner) w.owner)
  return {
    nullifiers := [nu], leaves := [leaf C.toKeccak w.asset w.note.cx w.note.cy w.releaseOwner]
    fees := relayFee w.asset w.fee, cdpCloses := [unbondClose C.toKeccak w.controller w.receipt] }

/-! ## The program -/

/-- What an operation of another kind appends. Its nullifiers, those of notes and of positions, are hashes under other
tags than a receipt's, and the sentinel leaf is of the farm operations alone. -/
structure Other (K : Keccak) where
  effects : Effects
  nullifiers_ne : ∀ n ∈ effects.nullifiers, ∀ r : Receipt, n ≠ r.nullifier K
  topups_ne : ∀ t ∈ effects.cdpTopups, ∀ r : Receipt, t.oldPositionNullifier ≠ r.nullifier K
  closes_ne : ∀ c ∈ effects.cdpCloses, ∀ r : Receipt, c.positionNullifier ≠ r.nullifier K
  liquidations_ne : ∀ q ∈ effects.cdpLiquidations, ∀ r : Receipt, q.positionNullifier ≠ r.nullifier K
  mints_ne : ∀ m ∈ effects.cdpMints, m.positionLeaf ≠ wordOfNat 1

inductive Op (K : Keccak)
  | wrap (w : Wrap)
  | farmBond (w : FarmBond)
  | lpBond (w : LpBond)
  | farmHarvest (w : FarmHarvest)
  | farmUnbond (w : FarmUnbond)
  | other (o : Other K)

def Op.run : Op C.toKeccak → Option Effects
  | .wrap w => SettleGuest.wrap C H w
  | .farmBond w => (SettleGuest.farmBond C H w).map Prod.snd
  | .lpBond w => (SettleGuest.lpBond C H w).map Prod.snd
  | .farmHarvest w => SettleGuest.farmHarvest C H w
  | .farmUnbond w => SettleGuest.farmUnbond C H w
  | .other o => some o.effects

/-- The receipt that an operation bonds. -/
def Op.bonds : Op C.toKeccak → Option Receipt
  | .farmBond w => (SettleGuest.farmBond C H w).map Prod.fst
  | .lpBond w => (SettleGuest.lpBond C H w).map Prod.fst
  | _ => none

/-- `main` (:525): the arrays in the order of the operations, and the checks at the end. -/
def main (memoHashes : List Word) (ops : List (Op C.toKeccak)) : Option ConfidentialPool.PublicValues := do
  guard (ops.length ≤ maxOps)
  let all ← ops.mapM (Op.run C H)
  let e : Effects := all.foldr (· ++ ·) {}
  guard (memoHashes.length = e.leaves.length + e.lockLeaves.length)
  guard e.nullifiers.Nodup
  guard e.lockNullifiers.Nodup
  guard (if H.authenticated then e.sources.length = e.nullifiers.length else e.sources = [])
  return {
    version := 1, chainBinding := H.chainBinding, spendRoot := H.spendRoot, nullifiers := e.nullifiers, leaves := e.leaves
    depositsConsumed := e.deposits, withdrawals := e.withdrawals, fees := e.fees, bitcoinBurnsConsumed := e.burns
    crossOuts := e.crossOuts, bitcoinRootsUsed := e.bitcoinRoots, bitcoinSpentRoot := H.bitcoinSpentRoot
    bitcoinBurnRoot := H.bitcoinBurnRoot, swaps := e.swaps, liquidity := e.liquidity, deadline := minDeadline e.deadlines
    lockSetRoot := H.lockSetRoot, lockLeaves := e.lockLeaves, lockNullifiers := e.lockNullifiers
    refundNotBefore := e.refunds.foldl max 0, cdpPositionRoot := H.cdpPositionRoot, cdpMints := e.cdpMints
    cdpCloses := e.cdpCloses, cdpLiquidations := e.cdpLiquidations, cdpTopups := e.cdpTopups, cbtcMints := e.cbtcMints
    memoRoot := memoHashes.foldl C.k2 0, bitcoinConsumedSources := e.sources, bitcoinBurnIdsConsumed := e.burnIds
    harvestActionIds := e.harvestActionIds }

end SettleGuest

end Tacit
