import Mathlib.Data.Nat.Sqrt
import Tacit.Notes
/-!
# Kernels, pool ids, AMM arithmetic and the farm accumulator

The conservation kernels of the Bitcoin lane (lib.rs:627-935), the ids of pools, LP shares and farms
(lib.rs:3894-4046), the constant-product formulas (lib.rs:2262-2326, :2714) and the reward-per-share
accumulator of a farm (lib.rs:6640-6870).
-/
namespace Tacit

section Kernels

variable (C : Crypto)

/-- The input list as every kernel message writes it: a count byte, then `txid ‖ vout_LE` each. -/
def kernelInputs (ops : List OutPoint) : Bytes :=
  [ops.length % 256] ++ (ops.map fun o => o.1.bytes ++ leBytes 4 o.2.val).flatten

/-- `cxfer_kernel_verify` (lib.rs:627). -/
def cxferKernelVerify (asset : Word) (inputOutpoints : List OutPoint) (inputCommitments : List Point)
    (outputs : List Bytes) (burnedAmount : U 64) (kernelSig : Bytes) : Bool :=
  if inputOutpoints.length ≠ inputCommitments.length then false
  else if inputOutpoints.length > 255 ∨ outputs.length > 255 then false
  else match outputs.mapM C.decompress with
    | none => false
    | some outPoints =>
      let msg := C.sha256 (ascii "tacit-kernel-v1" ++ asset.bytes ++ kernelInputs inputOutpoints ++
        [outputs.length] ++ outputs.flatten ++ leBytes 8 burnedAmount.val)
      C.assetScopedKernelVerify msg inputCommitments outPoints burnedAmount.val kernelSig

/-- `verify_cxfer_conservation_burned` (lib.rs:3562). -/
def verifyCxferConservationBurned (asset : Word) (inputOutpoints : List OutPoint)
    (inputCommitments : List Point) (outputs : List Bytes) (burnedAmount : U 64) (rangeProof kernelSig : Bytes) : Bool :=
  match outputs.mapM C.decompress with
  | none => false
  | some outPts =>
    cxferKernelVerify C asset inputOutpoints inputCommitments outputs burnedAmount kernelSig &&
      C.verifyRange outPts rangeProof

/-- `verify_cxfer_conservation` (lib.rs:3542). -/
def verifyCxferConservation (asset : Word) (inputOutpoints : List OutPoint) (inputCommitments : List Point)
    (outputs : List Bytes) (rangeProof kernelSig : Bytes) : Bool :=
  verifyCxferConservationBurned C asset inputOutpoints inputCommitments outputs 0 rangeProof kernelSig

/-- An all-zero 33-byte commitment: no change output. -/
def isSentinel (c : Bytes) : Bool := c.all (· == 0)

/-- `swap_var_kernel_verify` (lib.rs:681). The sentinel is the point at infinity, which adds nothing to the
output side. -/
def swapVarKernelVerify (assetIn : Word) (inputOutpoint : OutPoint) (cIn cChangeOrSentinel : Bytes)
    (deltaInTotal : U 64) (kernelSig : Bytes) : Bool :=
  let msg := C.sha256 (ascii "tacit-kernel-v1" ++ assetIn.bytes ++ [1] ++ inputOutpoint.1.bytes ++
    leBytes 4 inputOutpoint.2.val ++ [1] ++ cChangeOrSentinel ++ leBytes 8 deltaInTotal.val)
  match C.decompress cIn with
  | none => false
  | some cInPt =>
    if isSentinel cChangeOrSentinel then C.assetScopedKernelVerify msg [cInPt] [] deltaInTotal.val kernelSig
    else match C.decompress cChangeOrSentinel with
      | none => false
      | some cChangePt => C.assetScopedKernelVerify msg [cInPt] [cChangePt] deltaInTotal.val kernelSig

/-- `lp_add_kernel_verify` (lib.rs:735). -/
def lpAddKernelVerify (variant : Nat) (poolId assetX : Word) (deltaX shareAmount : U 64) (shareCsecp : Bytes)
    (inputOutpoints : List OutPoint) (inputCommitments : List Point) (sig : Bytes) (expiryHeight : U 32)
    (refundDestXonly refundBlinding : Word) : Bool :=
  if inputOutpoints.isEmpty ∨ inputOutpoints.length > 255 then false
  else if inputOutpoints.length ≠ inputCommitments.length then false
  else
    let msg := C.sha256 (ascii "tacit-amm-lp-add-v1" ++ [variant] ++ poolId.bytes ++ assetX.bytes ++
      leBytes 8 deltaX.val ++ leBytes 8 shareAmount.val ++ shareCsecp ++ kernelInputs inputOutpoints ++
      leBytes 4 expiryHeight.val ++ refundDestXonly.bytes ++ refundBlinding.bytes)
    C.assetScopedKernelVerify msg inputCommitments [] deltaX.val sig

/-- `lp_remove_kernel_verify` (lib.rs:828). -/
def lpRemoveKernelVerify (poolId : Word) (shareAmount deltaA deltaB : U 64) (recvASecp recvBSecp : Bytes)
    (lpInputOutpoints : List OutPoint) (lpInputCommitments : List Point) (refundDestXonly : Word)
    (sig : Bytes) : Bool :=
  if lpInputOutpoints.isEmpty ∨ lpInputOutpoints.length > 255 then false
  else if lpInputOutpoints.length ≠ lpInputCommitments.length then false
  else
    let msg := C.sha256 (ascii "tacit-amm-lp-remove-v1" ++ poolId.bytes ++ leBytes 8 shareAmount.val ++
      leBytes 8 deltaA.val ++ leBytes 8 deltaB.val ++ recvASecp ++ recvBSecp ++ kernelInputs lpInputOutpoints ++
      refundDestXonly.bytes)
    C.assetScopedKernelVerify msg lpInputCommitments [] shareAmount.val sig

/-- `lp_bond_kernel_verify` (lib.rs:882). -/
def lpBondKernelVerify (farmId lpAsset : Word) (bondAmount : U 64) (lpInputOutpoints : List OutPoint)
    (lpInputCommitments : List Point) (sig : Bytes) : Bool :=
  if lpInputOutpoints.isEmpty ∨ lpInputOutpoints.length > 255 then false
  else if bondAmount = 0 then false
  else if lpInputOutpoints.length ≠ lpInputCommitments.length then false
  else
    let msg := C.sha256 (ascii "tacit-amm-lp-bond-v1" ++ farmId.bytes ++ lpAsset.bytes ++ leBytes 8 bondAmount.val ++
      kernelInputs lpInputOutpoints)
    C.assetScopedKernelVerify msg lpInputCommitments [] bondAmount.val sig

end Kernels

/-! ## Ids -/

section Ids

variable (C : Crypto)

/-- `amm_canonical_pair` (lib.rs:3894). -/
def ammCanonicalPair (a b : Word) : Option (Word × Word) :=
  if a = b then none else if a < b then some (a, b) else some (b, a)

/-- `amm_derive_pool_id_full` (lib.rs:3910). -/
def ammDerivePoolIdFull (assetA assetB : Word) (feeBps : U 16) (capabilityFlags : U 8) (protocolFeeAddress : Bytes)
    (protocolFeeBps : U 16) : Option Word :=
  (ammCanonicalPair assetA assetB).map fun (low, high) =>
    C.sha256 (ascii "tacit-amm-pool-v1" ++ low.bytes ++ high.bytes ++ leBytes 2 feeBps.val ++ [capabilityFlags.val] ++
      (if protocolFeeBps ≠ 0 then protocolFeeAddress ++ leBytes 2 protocolFeeBps.val else []))

/-- `amm_derive_pool_id_v1` (lib.rs:3937). -/
def ammDerivePoolIdV1 (assetA assetB : Word) (feeBps : U 16) : Option Word :=
  ammDerivePoolIdFull C assetA assetB feeBps 0 (List.replicate 33 0) 0

/-- `amm_derive_lp_asset_id` (lib.rs:4021). -/
def ammDeriveLpAssetId (poolId : Word) : Word := C.sha256 (ascii "tacit-amm-lp-v1" ++ poolId.bytes)

/-- `amm_derive_farm_id` (lib.rs:4034). -/
def ammDeriveFarmId (poolId : Word) (launcherPubkey : Bytes) (rewardAsset farmNonce : Word) : Word :=
  C.sha256 (ascii "tacit-amm-farm-init-v1" ++ poolId.bytes ++ launcherPubkey ++ rewardAsset.bytes ++ farmNonce.bytes)

end Ids

/-! ## Constant-product arithmetic -/

/-- `AMM_MINIMUM_LIQUIDITY` and `AMM_MAX_POOL_FEE_BPS` (lib.rs:4010, :4016). -/
def ammMinimumLiquidity : Nat := 1000
def ammMaxPoolFeeBps : Nat := 1000

/-- `lp_add_shares` (lib.rs:2262); the result is a `u128`. -/
def lpAddShares (sharesPre dA dB reserveA reserveB : U 64) : Nat :=
  if reserveA = 0 ∨ reserveB = 0 then 0
  else
    let a := sharesPre.val * dA.val / reserveA.val
    let b := sharesPre.val * dB.val / reserveB.val
    if a < b then a else b

/-- `get_amount_out` (lib.rs:2309), in big integers. The source subtracts the fee in `u32`; every tier is at
most `AMM_MAX_POOL_FEE_BPS`. -/
def getAmountOut (amountIn reserveIn reserveOut : U 64) (feeBps : Nat) : Nat :=
  let gamma := 10000 - feeBps
  let ainG := amountIn.val * gamma
  reserveOut.val * ainG / (reserveIn.val * 10000 + ainG)

/-- `fee_clearing_floor_ok` (lib.rs:2329). -/
def feeClearingFloorOk (rIn inAmt newOut kPre feeBps : Nat) : Bool :=
  kPre * 10000 ≤ newOut * (rIn * 10000 + inAmt * (10000 - feeBps))

/-- `isqrt` (lib.rs:2284). -/
def isqrt (n : Nat) : Nat := Nat.sqrt n

/-- `protocol_fee_shares` (lib.rs:2714); a quotient past `u64` becomes `u64::MAX`. -/
def protocolFeeShares (sPre : U 64) (kPre kNow : Nat) (feeBps : U 16) : U 64 :=
  if feeBps = 0 ∨ sPre = 0 ∨ kNow ≤ kPre then 0
  else
    let rootPre := isqrt kPre
    let rootNow := isqrt kNow
    if rootNow ≤ rootPre then 0
    else
      let num := sPre.val * feeBps.val * (rootNow - rootPre)
      let den := (10000 - feeBps.val) * rootNow + feeBps.val * rootPre
      if den = 0 then 0 else U.saturate 64 (num / den)

/-! ## Farm rewards -/

def farmRpsPrecision : Nat := 2 ^ 64
def farmRateMax : Nat := 2 ^ 32 - 1
def farmWindowMax : Nat := 2 ^ 32 - 1
def farmRateWindowMax : Nat := 2 ^ 63

/-- `FarmRewardState` (lib.rs:6651). -/
structure FarmRewardState where
  rate : U 64
  totalShares : U 64
  rps : U 128
  totalRewardDebt : U 128
  lastHeight : U 64
  launcherPubkey : Bytes
  lpAsset : Word
  startHeight : U 64
  endHeight : U 64
deriving DecidableEq

namespace FarmRewardState

/-- `accrue`. -/
def accrue (st : FarmRewardState) (height : U 64) : FarmRewardState :=
  if height > st.lastHeight then
    let start := max st.lastHeight st.startHeight
    let stop := if st.endHeight = 0 then height else min height st.endHeight
    let st' :=
      if stop > start ∧ st.totalShares ≠ 0 then
        let dh := U.saturate 128 (stop.val - start.val)
        let gross := U.saturatingMul (U.saturatingMul (U.saturate 128 st.rate.val) dh)
          (U.saturate 128 farmRpsPrecision)
        { st with rps := U.saturatingAdd st.rps (U.saturate 128 (gross.val / st.totalShares.val)) }
      else st
    { st' with lastHeight := height }
  else st

/-- Accrual moves the accumulator and the height, nothing else. -/
theorem accrue_eq (st : FarmRewardState) (height : U 64) :
    ∃ rps last, st.accrue height = { st with rps := rps, lastHeight := last } := by
  unfold accrue
  dsimp only
  by_cases h : height > st.lastHeight
  · rw [if_pos h]
    generalize (if st.endHeight = 0 then height else min height st.endHeight) = stop
    split <;> exact ⟨_, _, rfl⟩
  · rw [if_neg h]
    exact ⟨_, _, rfl⟩

/-- `bond`; `none` leaves no state, as every caller works on a copy. -/
def bond (st : FarmRewardState) (shares height : U 64) : Option (FarmRewardState × U 128) :=
  if shares = 0 then none
  else do
    let st := st.accrue height
    let debt ← U.ofNat? 128 (shares.val * st.rps.val)
    let totalShares ← U.checkedAdd st.totalShares shares
    let totalRewardDebt ← U.checkedAdd st.totalRewardDebt debt
    some ({ st with totalShares := totalShares, totalRewardDebt := totalRewardDebt }, st.rps)

/-- `harvest_ok`: the accrued state and the verdict. -/
def harvestOk (st : FarmRewardState) (shares : U 64) (entryRps : U 128) (reward height : U 64) : Bool :=
  if shares = 0 then false
  else
    let st := st.accrue height
    if entryRps > st.rps then false
    else match U.ofNat? 128 (reward.val * farmRpsPrecision), U.ofNat? 128 (shares.val * (st.rps.val - entryRps.val)) with
      | some lhs, some rhs => lhs ≤ rhs
      | _, _ => false

/-- `harvest_commit`. -/
def harvestCommit (st : FarmRewardState) (shares : U 64) (entryRps : U 128) : Option (FarmRewardState × U 128) := do
  let d ← U.checkedSub st.rps entryRps
  let delta ← U.ofNat? 128 (shares.val * d.val)
  let totalRewardDebt ← U.checkedAdd st.totalRewardDebt delta
  some ({ st with totalRewardDebt := totalRewardDebt }, st.rps)

/-- `unbond`. -/
def unbond (st : FarmRewardState) (shares : U 64) (entryRps : U 128) (height : U 64) : Option FarmRewardState :=
  if shares = 0 then none
  else do
    let st := st.accrue height
    let debt ← U.ofNat? 128 (shares.val * entryRps.val)
    let totalShares ← U.checkedSub st.totalShares shares
    let totalRewardDebt ← U.checkedSub st.totalRewardDebt debt
    some { st with totalShares := totalShares, totalRewardDebt := totalRewardDebt }

end FarmRewardState

/-- `farm_receipt_leaf` (lib.rs:6818). -/
def farmReceiptLeaf (K : Keccak) (farm asset : Word) (shares : U 64) (owner nonce : Word) : Word :=
  K.kn [ascii "tacit-farm-receipt-v3", farm.bytes, asset.bytes, leBytes 8 shares.val, owner.bytes, nonce.bytes]

/-- `farm_receipt_nullifier` (lib.rs:6839). -/
def farmReceiptNullifier (K : Keccak) (leaf : Word) : Word := K.kn [ascii "tacit-farm-receipt-null-v1", leaf.bytes]

/-- `verify_farm_harvest` (lib.rs:6846): the state after accrual and the new stamp. -/
def verifyFarmHarvest (st : FarmRewardState) (height shares : U 64) (entryRps : U 128) (reward : U 64) :
    Option (FarmRewardState × U 128) :=
  if !st.harvestOk shares entryRps reward height then none else (st.accrue height).harvestCommit shares entryRps

end Tacit
