import Tacit.Bitcoin
/-!
# Provenance of a burned note (burn_deposit.rs)

A burn-deposit proves that the burned note descends from its asset's supply: the etch note `C_0` or an
authorised mint, through confirmed transfers that conserve. Proof of work, the block's Merkle trees and the
BIP141 witness commitment are the parameters of `Chain`; a transaction of the blob is `none` when its bytes do
not parse.
-/
namespace Tacit

/-- The checks against Bitcoin headers (bitcoin.rs:180, :282, :2259, :2308). -/
structure Chain where
  verifyHeaderChain : List Bytes → Option Word
  extractMerkleRoot : Bytes → Word
  verifyMerklePath : Word → List Word → Nat → Word
  /-- `verify_tx_witness_committed(..).is_some()`. -/
  verifyTxWitnessCommitted : Tx → Nat → List Word → Bytes → List Word → Word → Bool

/-- Inclusion of a transaction and of its witness in a block. -/
structure InclusionWitness where
  merkleIndex : Nat
  merkleSiblings : List Word
  wtxidSiblings : List Word
  coinbase : Bytes
  coinbaseTxidSiblings : List Word

/-- `ProvenanceWitness` (burn_deposit.rs:161). -/
structure ProvenanceWitness where
  tx : Option Tx
  inputCommitments : List Bytes
  outputVouts : List Nat
  burnedAmount : U 64
  inputSkip : Nat
  confirmedBlockRoot : Word
  inclusion : InclusionWitness

/-- `CmintWitness` (burn_deposit.rs:214). -/
structure CmintWitness where
  revealTx : Option Tx
  commitTx : Option Tx
  inclusion : InclusionWitness

/-- `ProvenanceBlob` (burn_deposit.rs:240). `etch` is `none` for an empty `etch_tx`, `some none` for one that
does not parse; of the refused pool memberships only their number is read. -/
structure ProvenanceBlob where
  etch : Option (Option Tx)
  etchInclusion : InclusionWitness
  cmints : List CmintWitness
  prov : List ProvenanceWitness
  poolMemberships : Nat

/-- `VerifiedCxfer` (burn_deposit.rs:28). -/
structure VerifiedCxfer where
  txid : Word
  inputs : List (OutPoint × Word)
  outputs : List (Nat × Word)

section Dag

variable (K : Keccak)

/-- The notes a transfer produces: outpoint key and commitment hash. -/
def VerifiedCxfer.produced (c : VerifiedCxfer) : List (Word × Word) :=
  c.outputs.map fun (vout, ch) => (outpointKey K (c.txid, U.wrap 32 vout), ch)

/-- The outpoint keys a transfer consumes. -/
def VerifiedCxfer.consumed (c : VerifiedCxfer) : List Word := c.inputs.map fun (op, _) => outpointKey K op

/-- Every input is a reachable note, value-matched by its commitment hash. -/
def VerifiedCxfer.ready (c : VerifiedCxfer) (reachable : List (Word × Word)) : Bool :=
  c.inputs.all fun (op, ch) => reachable.contains (outpointKey K op, ch)

/-- One pass of the reachability loop (burn_deposit.rs:111-128): what stays unaccepted, and the reachable
notes after it. -/
def dagPass : List VerifiedCxfer → List (Word × Word) → List VerifiedCxfer × List (Word × Word)
  | [], reachable => ([], reachable)
  | c :: t, reachable =>
    if c.ready K reachable then dagPass t (reachable ++ c.produced K)
    else
      let (rest, reachable) := dagPass t reachable
      (c :: rest, reachable)

/-- Passes until one makes no progress; `fuel` above the number of transfers is enough. -/
def dagLoop : Nat → List VerifiedCxfer → List (Word × Word) → List VerifiedCxfer × List (Word × Word)
  | 0, pending, reachable => (pending, reachable)
  | fuel + 1, pending, reachable =>
    let (rest, reachable) := dagPass K pending reachable
    if rest.length = pending.length then (rest, reachable) else dagLoop fuel rest reachable

/-- `verify_provenance_dag_leaves` (burn_deposit.rs:66). -/
def verifyProvenanceDagLeaves (validLeaves : List (Word × Word)) (burnedOutpoint : Word) (cxfers : List VerifiedCxfer) :
    Option Word :=
  let produced := (cxfers.map (·.produced K)).flatten
  let consumed := (cxfers.map (·.consumed K)).flatten
  if cxfers.isEmpty then none
  else if cxfers.any (·.outputs.isEmpty) ∨ ¬ (produced.map Prod.fst).Nodup then none
  else if cxfers.any (·.inputs.isEmpty) ∨ ¬ consumed.Nodup then none
  else if !(dagLoop K (cxfers.length + 1) cxfers validLeaves).1.isEmpty then none
  else if burnedOutpoint ∈ consumed then none
  else (produced.find? (·.1 == burnedOutpoint)).map Prod.snd

end Dag

section Crypto

variable (C : Crypto) (B : Chain)

/-- The transaction's inclusion in the block of `root`, its witness too. -/
def InclusionWitness.ok (w : InclusionWitness) (tx : Tx) (root : Word) : Bool :=
  B.verifyMerklePath tx.txid w.merkleSiblings w.merkleIndex == root &&
    B.verifyTxWitnessCommitted tx w.merkleIndex w.wtxidSiblings w.coinbase w.coinbaseTxidSiblings root

/-- The inputs the kernel of a transfer covers (burn_deposit.rs:519-533). -/
def ProvenanceWitness.kernelInputs (w : ProvenanceWitness) (tx : Tx) (e : CxferEnvelope) : Option (List OutPoint) :=
  if tx.inputs.length < w.inputSkip then none
  else match e.assetInputCount with
    | none => some (tx.inputs.drop w.inputSkip)
    | some count =>
      if w.inputSkip ≠ 1 ∨ tx.inputs.length < 1 + count then none else some ((tx.inputs.drop 1).take count)

/-- One step of `verify_cxfers` (burn_deposit.rs:488-583). -/
def verifyCxfer (asset : Word) (w : ProvenanceWitness) : Option VerifiedCxfer := do
  let tx ← w.tx
  if !w.inclusion.ok B tx w.confirmedBlockRoot then none
  else match tx.envelope with
    | some (.cxfer e) =>
      if e.asset ≠ asset then none
      else do
        let inputOutpoints ← w.kernelInputs tx e
        if w.inputCommitments.length ≠ inputOutpoints.length then none
        else if w.outputVouts.length ≠ e.commitments.length then none
        else do
          let inputPoints ← w.inputCommitments.mapM C.decompress
          if !verifyCxferConservationBurned C asset inputOutpoints inputPoints e.commitments w.burnedAmount e.rangeProof
              e.kernelSig then none
          else do
            let inHashes ← w.inputCommitments.mapM (commitmentHashCompressed C)
            let outHashes ← e.commitments.mapM (commitmentHashCompressed C)
            let vouts ← (List.range e.commitments.length).mapM fun i => canonicalOutputVout e.opcode i e.commitments.length
            if w.outputVouts ≠ vouts then none
            else some ⟨tx.txid, inputOutpoints.zip inHashes, vouts.zip outHashes⟩
    | _ => none

/-- `verify_provenance_leaves` (burn_deposit.rs:474). -/
def verifyProvenanceLeaves (asset : Word) (validLeaves : List (Word × Word)) (burnedOutpoint : Word)
    (cxfers : List ProvenanceWitness) : Option Word := do
  let verified ← cxfers.mapM (verifyCxfer C B asset)
  verifyProvenanceDagLeaves C.toKeccak validLeaves burnedOutpoint verified

/-- `verify_etch_anchor` (bitcoin.rs:506): the supply commitment and the mint authority. -/
def verifyEtchAnchor (etch : Tx) (asset : Word) : Option (Bytes × Word) :=
  if C.sha256 (etch.txid.bytes ++ leBytes 4 0) ≠ asset then none
  else match etch.envelope with
    | some (.cetch commitment mintAuthority rangeProof) => do
      let c0 ← C.decompress commitment
      if !C.verifyRange [c0] rangeProof then none else some (commitment, mintAuthority)
    | _ => none

/-- `verify_cmint_authorized` (burn_deposit.rs:605). -/
def verifyCmintAuthorized (asset mintAuthority etchTxid : Word) (reveal commit : Tx) : Option (Word × Word) :=
  if mintAuthority = 0 then none
  else match reveal.envelope with
    | some (.cmint e) =>
      if e.asset ≠ asset ∨ e.etchTxid ≠ etchTxid then none
      else if reveal.inputs.head? ≠ some (commit.txid, 0) then none
      else do
        let anchor ← commit.inputs.head?
        let msg := C.sha256 (ascii "tacit-mint-v1" ++ asset.bytes ++ anchor.1.bytes ++ leBytes 4 anchor.2.val ++
          e.commitment ++ e.amountCt)
        if !C.bip340Verify e.issuerSig msg mintAuthority then none
        else do
          let c ← C.decompress e.commitment
          if !C.verifyRange [c] e.rangeProof then none
          else do
            let ch ← commitmentHashCompressed C e.commitment
            some (outpointKey C.toKeccak (reveal.txid, 0), ch)
    | _ => none

/-- The mint leaves (reflect.rs:622-669): one commit authorises one mint. -/
def cmintLeaves (headers : List Bytes) (asset mintAuthority etchTxid : Word) :
    List CmintWitness → List Word → Option (List (Word × Word))
  | [], _ => some []
  | w :: t, seenCommits => do
    let reveal ← w.revealTx
    let root := B.verifyMerklePath reveal.txid w.inclusion.merkleSiblings w.inclusion.merkleIndex
    if !headers.any (fun h => B.extractMerkleRoot h == root) then none
    else do
      let commit ← w.commitTx
      if commit.txid ∈ seenCommits then none
      else if !w.inclusion.ok B reveal root then none
      else do
        let l ← verifyCmintAuthorized C asset mintAuthority etchTxid reveal commit
        let ls ← cmintLeaves headers asset mintAuthority etchTxid t (commit.txid :: seenCommits)
        some (l :: ls)

/-- The supply leaves of a blob (reflect.rs:582-670): none without an etch. -/
def supplyLeaves (headers : List Bytes) (asset : Word) (pb : ProvenanceBlob) : Option (List (Word × Word)) :=
  match pb.etch with
  | none => some []
  | some none => none
  | some (some etch) => do
    let (c0, mintAuthority) ← verifyEtchAnchor C etch asset
    let root := B.verifyMerklePath etch.txid pb.etchInclusion.merkleSiblings pb.etchInclusion.merkleIndex
    if !headers.any (fun h => B.extractMerkleRoot h == root) then none
    else if !pb.etchInclusion.ok B etch root then none
    else do
      let ch ← commitmentHashCompressed C c0
      let ls ← cmintLeaves C B headers asset mintAuthority etch.txid pb.cmints []
      some ((outpointKey C.toKeccak (etch.txid, 0), ch) :: ls)

end Crypto

end Tacit
