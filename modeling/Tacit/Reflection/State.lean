import Tacit.Amm
import Tacit.Imt
import Tacit.Lib.Prog
import Tacit.Lib.SortedMap
/-!
# `ScanReflection` and its elementary folds (lib.rs:4133-4760, :4862-4959, :6290-6340)

The reflection's state keeps the live outpoints, the pools and the farms in the clear, and its growing sets
(notes, spent nullifiers, burns, …) by root and count only. A fold takes the prover's witnesses as
arguments. `Err` keeps whatever the code had written by then; a panic ends the proof.
-/
namespace Tacit

/-- An entry of `LiveUtxoSet` (lib.rs:3357); `bound` is the generation tag 0/1. -/
structure LiveNote where
  commitmentHash : Word
  asset : Word
  authKey : Word
  bound : Bool
deriving DecidableEq

abbrev LiveUtxoSet := SortedMap Word LiveNote

/-- `PoolReserveState` (lib.rs:4133). A farm treasury is the same record with an empty B side. -/
structure PoolReserveState where
  assetA : Word
  assetB : Word
  reserveA : U 64
  reserveB : U 64
  totalShares : U 64
  c0Backed : Bool
  feeBps : U 16
  capabilityFlags : U 8
  protocolFeeBps : U 16
  kLast : Nat
  protocolFeeAccrued : U 64
deriving DecidableEq

/-- `crystallize_protocol_fee` (lib.rs:4170); `none` = one of its two overflow panics. -/
def PoolReserveState.crystallizeProtocolFee (p : PoolReserveState) : Option PoolReserveState :=
  if p.protocolFeeBps = 0 then some p
  else
    let kNow := p.reserveA.val * p.reserveB.val
    if kNow ≤ p.kLast then some { p with kLast := kNow }
    else do
      let shares := protocolFeeShares p.totalShares p.kLast kNow p.protocolFeeBps
      let accrued ← U.checkedAdd p.protocolFeeAccrued shares
      let total ← U.checkedAdd p.totalShares shares
      some { p with protocolFeeAccrued := accrued, totalShares := total, kLast := kNow }

/-- `ScanReflection` (lib.rs:4314). -/
structure ScanReflection where
  poolRoot : Word
  noteCount : Nat
  spentRoot : Word
  spentCount : Nat
  live : LiveUtxoSet
  burnRoot : Word
  burnCount : Nat
  height : U 64
  cbtcLocks : SortedMap Word (U 64)
  cbtcBackingSats : U 64
  pools : SortedMap Word PoolReserveState
  consumedCount : Nat
  ethReflDigest : Word
  farmRewards : SortedMap Word FarmRewardState
  farmEntries : SortedMap Word (U 128)
  consumedCrossoutRoot : Word
  consumedCrossoutCount : Nat
  honoredMsgRoot : Word
  honoredMsgCount : Nat
  foldedCrossoutCount : Nat
  consumedOutpointsRoot : Word
  consumedOutpointsCount : Nat
  ethSyncCommittee : Word
  pendingDepositRoot : Word
  pendingDepositCount : Nat

/-- `UtxoAccumulator::new().root()` (lib.rs:3264). -/
def utxoEmptyRoot (K : Keccak) : Word := keccakMerkleRoot K [utxoLeaf K 0 0 0]

/-- `ScanReflection::genesis` (lib.rs:4437). -/
def ScanReflection.genesis (K : Keccak) : ScanReflection where
  poolRoot := keccakMerkleRoot K []
  noteCount := 0
  spentRoot := imtEmptyRoot K
  spentCount := 1
  live := .empty
  burnRoot := utxoEmptyRoot K
  burnCount := 1
  height := 0
  cbtcLocks := .empty
  cbtcBackingSats := 0
  pools := .empty
  consumedCount := 0
  ethReflDigest := 0
  farmRewards := .empty
  farmEntries := .empty
  consumedCrossoutRoot := imtEmptyRoot K
  consumedCrossoutCount := 1
  honoredMsgRoot := imtEmptyRoot K
  honoredMsgCount := 1
  foldedCrossoutCount := 0
  consumedOutpointsRoot := imtEmptyRoot K
  consumedOutpointsCount := 1
  ethSyncCommittee := 0
  pendingDepositRoot := utxoEmptyRoot K
  pendingDepositCount := 1

/-- `rebase` (lib.rs:4545). -/
def ScanReflection.rebase (s : ScanReflection) : ScanReflection :=
  { s with consumedCount := 0, foldedCrossoutCount := 0, ethReflDigest := 0 }

abbrev Fold := Prog ScanReflection String

/-- The insert witness `read_spent_insert` reads (reflect.rs:406). -/
structure SpentInsert where
  lowValue : Word
  lowNext : Word
  lowIndex : Nat
  lowPath : List Word
  newPath : List Word

/-- The insert witness `read_burn_insert` reads (reflect.rs:416). -/
structure BurnInsert where
  lowKey : Word
  lowNext : Word
  lowValue : Word
  lowIndex : Nat
  lowPath : List Word
  newPath : List Word

open Prog

section Folds

variable (K : Keccak)

/-- `fold_spent` (lib.rs:4555). -/
def foldSpent (nu : Word) (w : SpentInsert) : Fold Unit := do
  let s ← get
  let root ← orThrow (imtInsertTransition K s.spentRoot nu w.lowValue w.lowNext w.lowIndex w.lowPath s.spentCount
    w.newPath) "spent-set insert witness invalid"
  modify fun s => { s with spentRoot := root, spentCount := s.spentCount + 1 }

/-- `LiveUtxoSet::insert_tagged` (lib.rs:3430) on the state; the duplicate panics. -/
def liveInsert (outpoint : Word) (n : LiveNote) : Fold Unit := do
  let s ← get
  let live ← orPanic (s.live.insert outpoint n)
  modify fun s => { s with live := live }

/-- `LiveUtxoSet::remove` (lib.rs:3444); an absent key panics. -/
def liveRemove (outpoint : Word) : Fold Unit := do
  let s ← get
  let _ ← orPanic (s.live.get outpoint)
  modify fun s => { s with live := s.live.erase outpoint }

/-- `fold_note_append` (lib.rs:4741). -/
def foldNoteAppend (noteLeaf : Word) (notePath : List Word) : Fold Unit := do
  let s ← get
  let root ← orThrow (keccakTreeAppendTransition K s.poolRoot s.noteCount notePath noteLeaf)
    "note append witness invalid"
  modify fun s => { s with poolRoot := root, noteCount := s.noteCount + 1 }

/-- The body `fold_output` and `fold_output_bound` share: append the leaf, then make the outpoint live. -/
def foldOutputTagged (bound : Bool) (noteLeaf : Word) (notePath : List Word)
    (outpoint commitmentHash asset authKey : Word) : Fold Unit := do
  foldNoteAppend K noteLeaf notePath
  liveInsert outpoint ⟨commitmentHash, asset, authKey, bound⟩

/-- `fold_output` (lib.rs:4704). -/
def foldOutput (noteLeaf : Word) (notePath : List Word) (outpoint commitmentHash asset authKey : Word) : Fold Unit :=
  foldOutputTagged K false noteLeaf notePath outpoint commitmentHash asset authKey

/-- `fold_output_bound` (lib.rs:4724). -/
def foldOutputBound (noteLeaf : Word) (notePath : List Word) (outpoint commitmentHash asset authKey : Word) : Fold Unit :=
  foldOutputTagged K true noteLeaf notePath outpoint commitmentHash asset authKey

/-- `fold_burn` (lib.rs:6327). -/
def foldBurn (burnId destCommitment : Word) (w : BurnInsert) : Fold Unit := do
  let s ← get
  let root ← orThrow (utxoInsertTransition K s.burnRoot burnId destCommitment w.lowKey w.lowNext w.lowValue w.lowIndex
    w.lowPath s.burnCount w.newPath) "burn-set insert witness invalid"
  modify fun s => { s with burnRoot := root, burnCount := s.burnCount + 1 }

/-- `fold_pending_deposit` (lib.rs:6304). -/
def foldPendingDeposit (outpoint record : Word) (w : BurnInsert) : Fold Unit := do
  let s ← get
  let root ← orThrow (utxoInsertTransition K s.pendingDepositRoot outpoint record w.lowKey w.lowNext w.lowValue
    w.lowIndex w.lowPath s.pendingDepositCount w.newPath) "pending-deposit insert witness invalid"
  modify fun s => { s with pendingDepositRoot := root, pendingDepositCount := s.pendingDepositCount + 1 }

/-- The leaf a live note stands for: `btc_note_leaf` or, with the bound tag, `btc_note_leaf_bound`. -/
def LiveNote.leaf (n : LiveNote) (cx cy chainBinding : Word) : Word :=
  if n.bound then btcNoteLeafBound K n.asset cx cy n.authKey chainBinding
  else btcNoteLeaf K n.asset cx cy n.authKey

/-- `eth_consumed_leaf` (eth_reflection.rs:130). -/
def ethConsumedLeaf (nu spendRoot : Word) : Word := K.kn [nu.bytes, spendRoot.bytes]

/-- `fold_consumed` (lib.rs:4595). -/
def foldConsumed (nu consumedVal btcSpendRoot cx cy : Word) (source : OutPoint) (chainBinding : Word)
    (setPath : List Word) (consumedSetRoot : Word) (sw ow : SpentInsert) : Fold Bool := do
  let s ← get
  check (!keccakMerkleVerify K (ethConsumedLeaf K nu consumedVal) s.consumedCount setPath consumedSetRoot)
    "consumed fold: ν not the next member of the eth consumed set (skip or wrong order)"
  let outpoint := outpointKey K source
  let n ← orThrow (s.live.get outpoint) "consumed fold: source outpoint not a live UTXO"
  check (n.commitmentHash ≠ commitmentHash K cx cy) "consumed fold: live commitment != Cx,Cy"
  let srcLeaf := n.leaf K cx cy chainBinding
  check (nullifier K srcLeaf ≠ nu) "consumed fold: ν != nullifier(leaf)"
  check (K.kn [btcSpendRoot.bytes, srcLeaf.bytes] ≠ consumedVal)
    "consumed fold: retired source leaf (asset/key) != the Ethereum-recorded consume"
  liveRemove outpoint
  let root ← orThrow (imtInsertTransition K s.consumedOutpointsRoot outpoint ow.lowValue ow.lowNext ow.lowIndex
    ow.lowPath s.consumedOutpointsCount ow.newPath) "consumed-outpoint set insert witness invalid"
  modify fun s => { s with consumedOutpointsRoot := root, consumedOutpointsCount := s.consumedOutpointsCount + 1 }
  foldSpent K nu sw
  modify fun s => { s with consumedCount := s.consumedCount + 1 }
  pure n.bound

end Folds

/-! ## Notes the folds onboard -/

section Onboard

variable (C : Crypto)

/-- `reflected_note_leaf` and `commitment_hash_compressed` of one commitment, then the append whose failure
panics, then the live entry: the tail of every onboarding that `expect`s its witness. -/
def onboardNote (asset : Word) (commitment : Bytes) (auth outpoint : Word) (path : List Word)
    (leafErr hashErr : String) : Fold Unit := do
  let leaf ← orThrow (reflectedNoteLeaf C asset commitment auth) leafErr
  let ch ← orThrow (commitmentHashCompressed C commitment) hashErr
  expect (foldOutput C.toKeccak leaf path outpoint ch asset auth)

/-- `onboard_btc_refund` (lib.rs:4862). -/
def onboardBtcRefund (asset : Word) (cIn : Bytes) (refundAuth refundOutpoint : Word) (refundPath : List Word) : Fold Unit :=
  onboardNote C asset cIn refundAuth refundOutpoint refundPath "refund: input commitment not a curve point"
    "refund: input commitment hash"

/-- `onboard_amm_refund_note` (lib.rs:4928). -/
def onboardAmmRefundNote (asset : Word) (value : U 64) (blinding auth outpoint : Word) (path : List Word) : Fold Unit := do
  check (auth = 0) "amm refund: destination is not P2TR (refund note would have no spend authority)"
  onboardNote C asset (C.pedersenCommitCompressed value.val blinding) auth outpoint path
    "amm refund: note not a curve point" "amm refund: commitment hash"

/-- One note of a pair: its asset and commitment, and where it lands. -/
structure PairedNote where
  asset : Word
  commitment : Bytes
  auth : Word
  outpoint : Word
  leafErr : String
  hashErr : String

/-- Two notes that come together: both leaves are appended before either outpoint is live. -/
def onboardPair (a b : PairedNote) (pathA pathB : List Word) : Fold Unit := do
  let leafA ← orThrow (reflectedNoteLeaf C a.asset a.commitment a.auth) a.leafErr
  let chA ← orThrow (commitmentHashCompressed C a.commitment) a.hashErr
  let leafB ← orThrow (reflectedNoteLeaf C b.asset b.commitment b.auth) b.leafErr
  let chB ← orThrow (commitmentHashCompressed C b.commitment) b.hashErr
  expect (foldNoteAppend C.toKeccak leafA pathA)
  expect (foldNoteAppend C.toKeccak leafB pathB)
  liveInsert a.outpoint ⟨chA, a.asset, a.auth, false⟩
  liveInsert b.outpoint ⟨chB, b.asset, b.auth, false⟩

/-- `onboard_lp_refund_pair` (lib.rs:4887). -/
def onboardLpRefundPair (assetA : Word) (valueA : U 64) (blindingA authA outpointA : Word) (pathA : List Word)
    (assetB : Word) (valueB : U 64) (blindingB authB outpointB : Word) (pathB : List Word) : Fold Unit :=
  onboardPair C
    ⟨assetA, C.pedersenCommitCompressed valueA.val blindingA, authA, outpointA, "lp_add refund: note A not a curve point",
      "lp_add refund: commitment A hash"⟩
    ⟨assetB, C.pedersenCommitCompressed valueB.val blindingB, authB, outpointB, "lp_add refund: note B not a curve point",
      "lp_add refund: commitment B hash"⟩ pathA pathB

end Onboard

end Tacit
