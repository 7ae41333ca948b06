import Tacit.Amm
/-!
# Transactions and envelopes of the Bitcoin lane (bitcoin.rs)

A confirmed transaction as the scan reads it, and the parsed envelopes: the parsers accept disjoint opcodes,
so an envelope is one constructor. A fixed-length byte field is `Bytes`. What only the off-chain worker reads
is left out.
-/
namespace Tacit

/-- `key[1..33]` of a compressed public key. -/
def xOnly (pubkey : Bytes) : Word := Word.ofBytes (pubkey.drop 1)

/-- `p2tr_xonly` (bitcoin.rs:2447). -/
def p2trXonly (spk : Bytes) : Option Word :=
  if spk.length = 34 ∧ spk.take 2 = [0x51, 0x20] then some (Word.ofBytes (spk.drop 2)) else none

/-! ## Envelopes -/

/-- `parse_cxfer_envelope_full` (bitcoin.rs:1040); `assetInputCount` is `axfer_asset_input_count`. -/
structure CxferEnvelope where
  opcode : Nat
  asset : Word
  assetInputCount : Option Nat
  kernelSig : Bytes
  commitments : List Bytes
  rangeProof : Bytes

/-- `parse_cxfer_bound_envelope` (bitcoin.rs:1091). -/
structure CxferBoundEnvelope where
  target : Word
  asset : Word
  kernelSig : Bytes
  commitments : List Bytes
  rangeProof : Bytes

/-- `parse_preauth_bid_var_envelope` and `parse_preauth_bid_envelope` (bitcoin.rs:1134, :1163). -/
structure BidEnvelope where
  opcode : Nat
  asset : Word
  kernelSig : Bytes
  commitments : List Bytes
  rangeProof : Bytes
  hasRefund : Bool

/-- `SwapVarEnvelope` (bitcoin.rs:780). -/
structure SwapVarEnvelope where
  poolId : Word
  direction : Nat
  deltaIn : U 64
  deltaInMin : U 64
  deltaInMax : U 64
  minOut : U 64
  tipAmount : U 64
  tipAsset : Nat
  expiryHeight : U 32
  traderPubkey : Bytes
  cIn : Bytes
  cChangeOrSentinel : Bytes
  rReceipt : Word
  kernelSig : Bytes
  intentSig : Bytes
  rangeProof : Bytes

/-- `SwapRouteHop` (bitcoin.rs:1963). -/
structure SwapRouteHop where
  poolId : Word
  direction : Nat
  deltaANetMag : U 64
  deltaBNetMag : U 64

/-- `SwapRouteEnvelope` (bitcoin.rs:1978); `n_hops` is the length of `hops`. -/
structure SwapRouteEnvelope where
  traderInputAsset : Word
  traderOutputAsset : Word
  minOut : U 64
  expiryHeight : U 32
  traderPubkey : Bytes
  hops : List SwapRouteHop
  cIn : Bytes
  rReceipt : Word
  kernelSig : Bytes
  intentSig : Bytes

/-- `SwapBatchIntent` (bitcoin.rs:1756). -/
structure SwapBatchIntent where
  direction : Nat
  traderPubkey : Bytes
  cInSecp : Bytes
  cInBjj : Bytes
  inXcurveSigma : Bytes
  minOut : U 64
  tipAmount : U 64
  expiryHeight : U 32
  intentSig : Bytes

/-- `SwapBatchReceipt` (bitcoin.rs:1775). -/
structure SwapBatchReceipt where
  cOutSecp : Bytes
  cOutBjj : Bytes
  outXcurveSigma : Bytes
  rangeProof : Bytes

/-- `SwapBatchEnvelope` (bitcoin.rs:1789); a negative net delta has sign 1. -/
structure SwapBatchEnvelope where
  assetA : Word
  assetB : Word
  nIntents : Nat
  deltaANetSign : Nat
  deltaANetMag : U 64
  deltaBNetSign : Nat
  deltaBNetMag : U 64
  rNetA : Word
  rNetB : Word
  feeBps : U 16
  tipAAmount : U 64
  tipBAmount : U 64
  tipACSecp : Bytes
  tipBCSecp : Bytes
  rTipA : Word
  rTipB : Word
  intents : List SwapBatchIntent
  receipts : List SwapBatchReceipt
  proof : Bytes

/-- `LpAddEnvelope` (bitcoin.rs:1212). -/
structure LpAddEnvelope where
  variant : Nat
  assetA : Word
  assetB : Word
  deltaA : U 64
  deltaB : U 64
  shareAmount : U 64
  shareCsecp : Bytes
  kernelSigA : Bytes
  kernelSigB : Bytes
  shareR : Word
  feeBps : U 16
  capabilityFlags : U 8
  protocolFeeAddress : Bytes
  protocolFeeBps : U 16
  expiryHeight : U 32
  refundABlinding : Word
  refundBBlinding : Word

/-- `LpRemoveEnvelope` (bitcoin.rs:1368). -/
structure LpRemoveEnvelope where
  assetA : Word
  assetB : Word
  shareAmount : U 64
  deltaA : U 64
  deltaB : U 64
  recvASecp : Bytes
  recvBSecp : Bytes
  kernelSig : Bytes
  rRecvA : Word
  rRecvB : Word

/-- `FarmInitEnvelope` (bitcoin.rs:1420). -/
structure FarmInitEnvelope where
  poolId : Word
  farmNonce : Word
  launcherPubkey : Bytes
  rewardAsset : Word
  rewardTotal : U 64
  rewardPerBlock : U 64
  startHeight : U 32
  endHeight : U 32
  cChangeOrSentinel : Bytes
  kernelSig : Bytes
  launcherSig : Bytes
  refundExpiry : U 32
  refundDestXonly : Word
  refundBlinding : Word

/-- `parse_lp_bond_fields_full` (bitcoin.rs:1593). -/
structure LpBondEnvelope where
  farmId : Word
  bonderPubkey : Bytes
  bondAmount : U 64
  entryAccPerShare : U 128
  bondViewHeight : U 32
  ownerCommit : Word
  nonce : Word
  kernelSig : Bytes
  bonderSig : Bytes
  refundExpiry : U 32
  refundDestXonly : Word
  refundBlinding : Word

/-- `parse_lp_harvest_envelope` (bitcoin.rs:1548), less its vestigial fields. -/
structure LpHarvestEnvelope where
  farmId : Word
  rewardAmount : U 64
  rewardR : Word
  ownerCommit : Word
  oldNonce : Word
  shares : U 64
  harvesterSig : Bytes

/-- `parse_lp_unbond_fields` (bitcoin.rs:1669). -/
structure LpUnbondEnvelope where
  farmId : Word
  ownerCommit : Word
  nonce : Word
  shares : U 64
  lpReturnR : Word
  unbonderSig : Bytes

/-- `parse_farm_refund_envelope_full` (bitcoin.rs:1711). -/
structure FarmRefundEnvelope where
  farmId : Word
  launcherPubkey : Bytes
  refundAmount : U 64
  refundViewHeight : U 32
  refundR : Word
  launcherSig : Bytes

/-- `parse_protocol_fee_claim_envelope` (bitcoin.rs:1738). -/
structure ProtocolFeeClaimEnvelope where
  poolId : Word
  claimerPubkey : Bytes
  claimAmount : U 64
  claimCSecp : Bytes
  claimBlinding : Word
  claimSig : Bytes

/-- `parse_cmint` (bitcoin.rs:528). -/
structure CmintEnvelope where
  asset : Word
  etchTxid : Word
  commitment : Bytes
  amountCt : Bytes
  rangeProof : Bytes
  issuerSig : Bytes

/-- What the guest makes of the payload `extract_taproot_envelope` returns. An etch and a mint mean nothing to
the scan; they are read as the roots of a lineage. -/
inductive Envelope
  | cetch (commitment : Bytes) (mintAuthority : Word) (rangeProof : Bytes)
  | cmint (e : CmintEnvelope)
  | burn (asset nu dest target : Word)
  | cxfer (e : CxferEnvelope)
  | cxferBound (e : CxferBoundEnvelope)
  | crossoutMint (asset claimId cx cy : Word)
  | cbtcLock (asset : Word) (lockVout : U 32) (cx cy : Word)
  | cbtcRedeem (lock : OutPoint) (vBtc : U 64) (kernelSig : Bytes)
  | ethCall (msgId ns : Word) (sender : Bytes) (destChain : Nat) (payloadHash : Word) (payload : Bytes)
  | bid (e : BidEnvelope)
  | swapVar (e : SwapVarEnvelope)
  | swapRoute (e : SwapRouteEnvelope)
  | swapBatch (e : SwapBatchEnvelope)
  | lpAdd (e : LpAddEnvelope)
  | lpRemove (e : LpRemoveEnvelope)
  | farmInit (e : FarmInitEnvelope)
  | lpBond (e : LpBondEnvelope)
  | lpHarvest (e : LpHarvestEnvelope)
  | farmRefund (e : FarmRefundEnvelope)
  | lpUnbond (e : LpUnbondEnvelope)
  | protocolFeeClaim (e : ProtocolFeeClaimEnvelope)

/-! ## Transactions -/

/-- A confirmed transaction: its inputs with the witness stack of each, its outputs `(value, scriptPubKey)`
and its envelope (`none` also for an opcode the state does not depend on). -/
structure Tx where
  txid : Word
  inputs : List OutPoint
  witness : List (List Bytes)
  outputs : List (U 64 × Bytes)
  envelope : Option Envelope

/-- `is_strict_der_sig_with_sighash` (bitcoin.rs:2467). -/
def isStrictDerSigWithSighash (sig : Bytes) : Bool :=
  let rlen := sig.getD 3 0
  let slen := sig.getD (5 + rlen) 0
  9 ≤ sig.length && sig.length ≤ 73 && sig.getD 0 0 == 0x30 && sig.getD 1 0 == sig.length - 3 &&
    sig.getD 2 0 == 0x02 && rlen != 0 && 4 + rlen + 2 ≤ sig.length && sig.getD (4 + rlen) 0 == 0x02 &&
    slen != 0 && 6 + rlen + slen == sig.length - 1

/-- `sig_binds_all_outputs` (bitcoin.rs:2598). -/
def sigBindsAllOutputs (sig : Bytes) : Bool :=
  if sig.length = 0 then false else if sig.length = 64 then true else sig.getD (sig.length - 1) 0 % 128 == 1

namespace Tx

variable (tx : Tx)

/-- `output_spk` (bitcoin.rs:2438). -/
def outputSpk (vout : Nat) : Option Bytes := (tx.outputs[vout]?).map Prod.snd

/-- `output_scriptpubkey` (bitcoin.rs:2428). -/
def outputScriptpubkey (vout : Nat) : Bytes := (tx.outputSpk vout).getD []

/-- `output_p2tr_xonly(tx, vout).unwrap_or([0; 32])` (bitcoin.rs:2457). -/
def outputAuth (vout : Nat) : Word := ((tx.outputSpk vout).bind p2trXonly).getD 0

/-- `input_first_witness_item` (bitcoin.rs:2502): a key-path or a P2WPKH-shaped witness. -/
def inputFirstWitnessItem (vin : Nat) : Option Bytes :=
  match tx.witness[vin]? with
  | some [sig] => some sig
  | some [sig, pk] =>
    if pk.length = 33 ∧ pk.getD 0 0 ∈ [0x02, 0x03] ∧ isStrictDerSigWithSighash sig then some sig else none
  | _ => none

/-- `note_spends_bind_outputs` (bitcoin.rs:2615). -/
def noteSpendsBindOutputs (ops : List OutPoint) : Bool :=
  ops.all fun op => match tx.inputs.idxOf? op with
    | none => false
    | some i => match tx.inputFirstWitnessItem i with
      | some sig => sigBindsAllOutputs sig
      | none => false

end Tx

/-! ## Signed messages -/

/-- `len as u16 ‖ spk`. -/
def lenPrefixed (spk : Bytes) : Bytes := leBytes 2 spk.length ++ spk

section Messages

variable (C : Crypto)

/-- `swap_var_intent_msg` (bitcoin.rs:854). -/
def swapVarIntentMsg (e : SwapVarEnvelope) (input : OutPoint) (receiveSpk changeSpk refundSpk : Bytes) : Word :=
  C.sha256 (ascii "tacit-amm-swap-var-v1" ++ e.poolId.bytes ++ [e.direction] ++ leBytes 8 e.deltaIn.val ++
    leBytes 8 e.deltaInMin.val ++ leBytes 8 e.deltaInMax.val ++ leBytes 8 e.minOut.val ++ leBytes 8 e.tipAmount.val ++
    [e.tipAsset] ++ leBytes 4 e.expiryHeight.val ++ e.traderPubkey ++ input.1.bytes ++ leBytes 4 input.2.val ++
    lenPrefixed receiveSpk ++ e.rReceipt.bytes ++ e.cChangeOrSentinel ++ lenPrefixed changeSpk ++
    lenPrefixed refundSpk)

/-- `route_delta_in` (bitcoin.rs:951). -/
def routeDeltaIn (e : SwapRouteEnvelope) : U 64 :=
  match e.hops with
  | [] => 0
  | h :: _ => if h.direction = 0 then h.deltaANetMag else h.deltaBNetMag

/-- `swap_route_intent_msg` (bitcoin.rs:916). -/
def swapRouteIntentMsg (e : SwapRouteEnvelope) (receiveSpk refundSpk : Bytes) : Word :=
  C.sha256 (ascii "tacit-swap-route-v1" ++ e.traderPubkey ++ e.traderInputAsset.bytes ++ e.traderOutputAsset.bytes ++
    leBytes 8 (routeDeltaIn e).val ++ leBytes 8 e.minOut.val ++ leBytes 4 e.expiryHeight.val ++ [e.hops.length] ++
    (e.hops.map fun h => h.poolId.bytes ++ [h.direction]).flatten ++ e.cIn ++ e.rReceipt.bytes ++
    lenPrefixed receiveSpk ++ lenPrefixed refundSpk)

/-- `swap_batch_intent_msg` (bitcoin.rs:966), for the one outpoint the fold passes. -/
def swapBatchIntentMsg (poolId : Word) (it : SwapBatchIntent) (input : OutPoint) (receiveSpk refundSpk : Bytes) : Word :=
  C.sha256 (ascii "tacit-amm-intent-v1" ++ poolId.bytes ++ [it.direction] ++ [1] ++ input.1.bytes ++
    leBytes 4 input.2.val ++ it.cInSecp ++ it.cInBjj ++ it.inXcurveSigma ++ lenPrefixed receiveSpk ++
    leBytes 8 it.minOut.val ++ leBytes 8 it.tipAmount.val ++ [it.direction] ++ leBytes 4 it.expiryHeight.val ++
    it.traderPubkey ++ lenPrefixed refundSpk)

/-- `amm_funding_hash` (bitcoin.rs:1486). -/
def ammFundingHash (ops : List OutPoint) (kernelSig : Bytes) : Word :=
  C.sha256 ((ops.map fun o => o.1.bytes ++ leBytes 4 o.2.val).flatten ++ (C.sha256 kernelSig).bytes)

/-- `farm_init_msg` (bitcoin.rs:1451). -/
def farmInitMsg (farmId : Word) (e : FarmInitEnvelope) (fundingHash : Word) : Word :=
  C.sha256 (ascii "tacit-amm-farm-init-v1" ++ farmId.bytes ++ e.launcherPubkey ++ leBytes 8 e.rewardTotal.val ++
    leBytes 8 e.rewardPerBlock.val ++ leBytes 4 e.startHeight.val ++ leBytes 4 e.endHeight.val ++ fundingHash.bytes ++
    leBytes 4 e.refundExpiry.val ++ e.refundDestXonly.bytes ++ e.refundBlinding.bytes)

/-- `lp_bond_msg` (bitcoin.rs:1629). -/
def lpBondMsg (e : LpBondEnvelope) (fundingHash : Word) : Word :=
  C.sha256 (ascii "tacit-amm-farm-bond-v1" ++ e.farmId.bytes ++ e.bonderPubkey ++ leBytes 8 e.bondAmount.val ++
    leBytes 16 e.entryAccPerShare.val ++ leBytes 4 e.bondViewHeight.val ++ e.ownerCommit.bytes ++ e.nonce.bytes ++
    fundingHash.bytes ++ leBytes 4 e.refundExpiry.val ++ e.refundDestXonly.bytes ++ e.refundBlinding.bytes)

/-- `farm_refund_msg` (lib.rs:4051). -/
def farmRefundMsg (e : FarmRefundEnvelope) (destSpk : Bytes) : Word :=
  C.kn [ascii "tacit-amm-farm-refund-v1", e.farmId.bytes, beBytes 8 e.refundAmount.val, e.refundR.bytes,
    beBytes 4 e.refundViewHeight.val, destSpk]

/-- `protocol_fee_claim_msg` (lib.rs:4060). -/
def protocolFeeClaimMsg (e : ProtocolFeeClaimEnvelope) (destSpk : Bytes) : Word :=
  C.kn [ascii "tacit-amm-protocol-fee-claim-v1", e.poolId.bytes, beBytes 8 e.claimAmount.val, e.claimCSecp,
    e.claimBlinding.bytes, destSpk]

/-- `lp_harvest_owner_msg` (lib.rs:4080). -/
def lpHarvestOwnerMsg (e : LpHarvestEnvelope) (oldLeaf : Word) (destSpk : Bytes) : Word :=
  C.kn [ascii "tacit-farm-harvest-owner-v1", e.farmId.bytes, oldLeaf.bytes, beBytes 8 e.rewardAmount.val,
    e.rewardR.bytes, destSpk]

/-- `lp_unbond_owner_msg` (lib.rs:4083). -/
def lpUnbondOwnerMsg (e : LpUnbondEnvelope) (oldLeaf : Word) (destSpk : Bytes) : Word :=
  C.kn [ascii "tacit-farm-unbond-owner-v1", e.farmId.bytes, oldLeaf.bytes, beBytes 8 e.shares.val, e.lpReturnR.bytes,
    destSpk]

end Messages

end Tacit
