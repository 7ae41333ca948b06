import Tacit.Pool.Settle
import Tacit.Reflection.Farm.Moves
/-!
# The settle guest (confidential/src/main.rs)

The guest reads a header and a list of operations and commits the public values of the batch. Every operation appends
to the arrays that `main` starts empty: `Effects` is what one appends. The operations on wraps and on farm positions are
those of the source; what the others append is `Other`.
-/
namespace Tacit

namespace SettleGuest

/-- The proofs that the settle guest checks, beside those of `Crypto`. -/
structure Proofs extends Crypto where
  /-- `verify_opening_sigma` (lib.rs:461), the response reduced mod the group order. -/
  verifyOpeningSigma : Point → Nat → Point → Word → Word → Bool

/-- `MAX_OPS` and `MAX_ITEMS_PER_OP` (:95). -/
def maxOps : Nat := 256
def maxItemsPerOp : Nat := 256

/-- `U256::from_be_bytes`. A digest that is no string of bytes keeps a number of its own, past every `uint256`. -/
def uintOfWord (w : Word) : Nat := if ∀ b ∈ w.bytes, b < 256 then w.toNat else 2 ^ 256 + Encodable.encode w.bytes

/-! ## Hashes -/

section

variable (K : Keccak)

/-- `nk_to_owner` (lib.rs:1754). -/
def nkToOwner (nk : Word) : Word := K.kn [nk.bytes, ascii "tacit-native-owner-v1"]

/-- `native_nullifier` (lib.rs:1762). -/
def nativeNullifier (nk noteLeaf : Word) : Word := K.kn [nk.bytes, noteLeaf.bytes, ascii "tacit-native-nullifier-v1"]

/-- `native_nu` (:270) and the nullifier of `native_input` (:256). -/
def nativeNu (owner nk noteLeaf : Word) : Option Word :=
  if owner = 0 then some (nullifier K noteLeaf)
  else if nkToOwner K nk ≠ owner then none
  else some (nativeNullifier K nk noteLeaf)

/-- `intent_context` (lib.rs:521). -/
def intentContext (tag : String) (chainBinding assetA assetB : Word) (notes : List (Word × Word × Word))
    (amounts : List Nat) : Word :=
  K.kn ([ascii tag, chainBinding.bytes, assetA.bytes, assetB.bytes] ++
    notes.flatMap (fun n => [n.1.bytes, n.2.1.bytes, n.2.2.bytes]) ++ amounts.map (beBytes 8))

/-- `btc_note_spend_msg` (lib.rs:1896). -/
def btcNoteSpendMsg (chainBinding opId inLeaf inNullifier : Word) (outLeaves : List Word) (fee deadline : Nat) : Word :=
  K.kn ([ascii "tacit-btc-note-spend-v1", chainBinding.bytes, opId.bytes, inLeaf.bytes, inNullifier.bytes,
    beBytes 8 outLeaves.length] ++ outLeaves.map Word.bytes ++ [beBytes 8 fee, beBytes 8 deadline])

/-- `deposit_commit` (lib.rs:2865). -/
def depositCommit (cx cy owner : Word) : Word := K.kn [cx.bytes, cy.bytes, owner.bytes]

/-- `deposit_id` (lib.rs:2870). -/
def depositId (asset : Word) (value : Nat) (commit : Word) : Word := K.kn [asset.bytes, beBytes 32 value, commit.bytes]

/-- `cdp_debt_asset_id` (lib.rs:2097). -/
def cdpDebtAssetId (controller : Address) : Word := K.kn [ascii "tacit-cdp-debt-v1", beBytes 20 controller]

/-- `pool_id_with_protocol_fee` (lib.rs:2233). -/
def poolIdWithProtocolFee (assetA assetB : Word) (feeBps : Nat) (recipient : Bytes) (protocolFeeBps : Nat) : Word :=
  let pair := if beBytesLte assetA assetB then [assetA.bytes, assetB.bytes] else [assetB.bytes, assetA.bytes]
  if protocolFeeBps = 0 then K.kn (pair ++ [beBytes 32 feeBps])
  else K.kn (pair ++ [beBytes 32 feeBps, recipient, beBytes 32 protocolFeeBps])

/-- `lp_share_id` (lib.rs:2253). -/
def lpShareId (poolId : Word) : Word := K.kn [poolId.bytes, ascii "lp"]

/-- `evm_lp_harvest_owner_msg` (lib.rs:4097). -/
def evmLpHarvestOwnerMsg (farm receipt : Word) (reward fee : Nat) (harvestNonce rewardAsset cx cy rewardOwner : Word) : Word :=
  K.kn [ascii "tacit-evm-farm-harvest-owner-v1", farm.bytes, receipt.bytes, beBytes 8 reward, beBytes 8 fee,
    harvestNonce.bytes, rewardAsset.bytes, cx.bytes, cy.bytes, rewardOwner.bytes]

/-- `evm_harvest_action_id` (lib.rs:4113). -/
def evmHarvestActionId (chainBinding farm receipt harvestNonce rewardAsset : Word) (reward fee : Nat) (rewardLeaf : Word) : Word :=
  K.kn [ascii "tacit-evm-farm-harvest-action-v1", chainBinding.bytes, farm.bytes, receipt.bytes, harvestNonce.bytes,
    rewardAsset.bytes, beBytes 8 reward, beBytes 8 fee, rewardLeaf.bytes]

/-- `evm_lp_unbond_owner_msg` (lib.rs:4122). -/
def evmLpUnbondOwnerMsg (farm receipt : Word) (shares fee : Nat) (lpAsset cx cy releaseOwner : Word) : Word :=
  K.kn [ascii "tacit-evm-farm-unbond-owner-v1", farm.bytes, receipt.bytes, beBytes 8 shares, beBytes 8 fee,
    lpAsset.bytes, cx.bytes, cy.bytes, releaseOwner.bytes]

end

/-- The loop of `fee_is_quantized` (:355). -/
def stripZeros (f : Nat) : Nat := if h : f ≠ 0 ∧ f % 10 = 0 then stripZeros (f / 10) else f
termination_by f
decreasing_by exact Nat.div_lt_self (Nat.pos_of_ne_zero h.1) (by decide)

/-- `fee_is_quantized` (:355). -/
def feeIsQuantized (fee : Nat) : Bool := fee = 0 || stripZeros fee < 100

/-! ## The batch -/

/-- What `main` reads first. -/
structure Header where
  chainBinding : Word
  spendRoot : Word
  bitcoinSpentRoot : Word
  bitcoinBurnRoot : Word
  lockSetRoot : Word
  cdpPositionRoot : Word

/-- `batch_authenticated`. -/
def Header.authenticated (H : Header) : Bool := H.bitcoinSpentRoot ≠ 0

/-- What an operation appends to the arrays of the batch; a deadline joins the earliest, a refund the latest. -/
structure Effects where
  nullifiers : List Word := []
  sources : List Word := []
  leaves : List Word := []
  deposits : List Word := []
  withdrawals : List ConfidentialPool.Withdrawal := []
  fees : List ConfidentialPool.FeePayment := []
  burns : List Word := []
  burnIds : List Word := []
  bitcoinRoots : List Word := []
  crossOuts : List ConfidentialPool.CrossOut := []
  swaps : List ConfidentialPool.SwapSettlement := []
  liquidity : List ConfidentialPool.LpSettlement := []
  deadlines : List Nat := []
  lockLeaves : List Word := []
  lockNullifiers : List Word := []
  refunds : List Nat := []
  cdpMints : List ConfidentialPool.CdpMint := []
  cdpCloses : List ConfidentialPool.CdpClose := []
  cdpLiquidations : List ConfidentialPool.CdpClose := []
  cdpTopups : List ConfidentialPool.CdpTopup := []
  cbtcMints : List ConfidentialPool.CbtcMint := []
  harvestActionIds : List Word := []

instance : Append Effects where
  append d e := ⟨d.nullifiers ++ e.nullifiers, d.sources ++ e.sources, d.leaves ++ e.leaves, d.deposits ++ e.deposits,
    d.withdrawals ++ e.withdrawals, d.fees ++ e.fees, d.burns ++ e.burns, d.burnIds ++ e.burnIds,
    d.bitcoinRoots ++ e.bitcoinRoots, d.crossOuts ++ e.crossOuts, d.swaps ++ e.swaps, d.liquidity ++ e.liquidity,
    d.deadlines ++ e.deadlines, d.lockLeaves ++ e.lockLeaves, d.lockNullifiers ++ e.lockNullifiers,
    d.refunds ++ e.refunds, d.cdpMints ++ e.cdpMints, d.cdpCloses ++ e.cdpCloses,
    d.cdpLiquidations ++ e.cdpLiquidations, d.cdpTopups ++ e.cdpTopups, d.cbtcMints ++ e.cbtcMints,
    d.harvestActionIds ++ e.harvestActionIds⟩

/-- `min_deadline`: 0 is no deadline. -/
def minDeadline (deadlines : List Nat) : Nat :=
  deadlines.foldl (fun m d => if d = 0 then m else if m = 0 then d else min m d) 0

/-! ## Inputs -/

/-- The witness of `check_btc_nonmembership` (:511). -/
structure Absence where
  lowValue : Word
  lowNext : Word
  lowIndex : U 64
  lowPath : List Word

/-- A commitment with the proof that it opens to a public value. -/
structure Opening where
  cx : Word
  cy : Word
  sigR : Bytes
  sigZ : Word

section

variable (C : Proofs) (H : Header)

/-- The guard around `check_btc_nonmembership`. -/
def absent (nu : Word) (w : Absence) : Bool :=
  H.bitcoinSpentRoot = 0 ||
    imtNonMembership C.toKeccak H.bitcoinSpentRoot nu w.lowValue w.lowNext w.lowIndex.val w.lowPath

/-- `r_commitment`, and `verify_opening_sigma` under a context. -/
def Opening.opens (o : Opening) (value : Nat) (context : Word) : Bool :=
  match C.fromAffineXy o.cx o.cy, C.decompress o.sigR with
  | some p, some r => C.verifyOpeningSigma p value r o.sigZ context
  | _, _ => false

/-- An input: its leaf, its nullifier and its authority. -/
structure Input where
  leaf : Word
  nu : Word
  authKey : Word

/-- `input_leaf_authed` (:291). -/
def inputLeafAuthed (asset cx cy owner nk : Word) : Option Input :=
  if H.authenticated then
    let lf := btcNoteLeafBound C.toKeccak asset cx cy owner H.chainBinding
    some ⟨lf, nullifier C.toKeccak lf, owner⟩
  else
    let lf := leaf C.toKeccak asset cx cy owner
    (nativeNu C.toKeccak owner nk lf).map fun nu => ⟨lf, nu, owner⟩

/-- What the inputs of an operation leave in `bitcoin_consumed_sources`. -/
def consumedSources (inputs : List Input) : List Word := if H.authenticated then inputs.map Input.leaf else []

/-- `verify_btc_input_auths` (:323): one signature for each Bitcoin-homed input. -/
def verifyBtcInputAuths (inputs : List Input) (sigs : List Bytes) (opId : Word) (outLeaves : List Word)
    (fee deadline : Nat) : Bool :=
  !H.authenticated || (sigs.length == inputs.length && (inputs.zip sigs).all fun p =>
    C.bip340Verify p.2 (btcNoteSpendMsg C.toKeccak H.chainBinding opId p.1.leaf p.1.nu outLeaves fee deadline) p.1.authKey)

/-! ## Wraps -/

/-- The witness of `OP_WRAP`. -/
structure Wrap where
  asset : Word
  value : U 64
  note : Opening
  owner : Word

/-- `OP_WRAP` (:614). -/
def wrap (w : Wrap) : Option Effects := do
  let dep := depositId C.toKeccak w.asset w.value.val (depositCommit C.toKeccak w.note.cx w.note.cy w.owner)
  guard (w.note.opens C w.value.val (intentContext C.toKeccak "tacit-wrap-intent-v1" H.chainBinding w.asset dep
    [(w.note.cx, w.note.cy, w.owner)] [w.value.val]))
  return { leaves := [leaf C.toKeccak w.asset w.note.cx w.note.cy w.owner], deposits := [dep] }

end

end SettleGuest

end Tacit
