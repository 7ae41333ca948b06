import Tacit.BurnDeposit
import Tacit.Reflection.SwapBatch
/-!
# The transaction scan of the reflection guest (reflect.rs:509-810, :1143-2602)

Per transaction: detect the spent notes, retire their nullifiers, then dispatch on the envelope. What the guest
reads from the prover for one transaction is `TxWitness`, by kind and in reading order; reading past the end is
a panic wherever the value matters. The guest itself has no error result: a fold's `Err` is either a panic
(`expect`) or dropped (`swallow`).
-/
namespace Tacit

open Prog

abbrev Guest := Prog ScanReflection Empty

/-- `let _ = …`: the result is dropped, the state stays as the fold left it. -/
def swallow {α : Type} (m : Fold α) : Guest Unit := do
  let _ ← attempt m
  pure ()

/-- `fold(..).is_ok()`. -/
def succeeds {α : Type} (m : Fold α) : Guest Bool := do
  match ← attempt m with
  | .ok _ => pure true
  | .error _ => pure false

/-- What `read_deposit_witness` reads (reflect.rs:434); `blob` is `none` when it does not parse. -/
structure DepositWitness where
  burnedCx : Word
  burnedCy : Word
  spentInsert : SpentInsert
  burnInsert : BurnInsert
  coIsMember : Bool
  coValue : Word
  coNext : Word
  coIndex : Nat
  coPath : List Word
  notePath : List Word
  provHeaders : List Bytes
  blob : Option ProvenanceBlob

/-- What the guest reads for one transaction. -/
structure TxWitness where
  openings : List (Word × Word)
  spents : List SpentInsert
  paths : List (List Word)
  burn : BurnInsert
  burnTxCommitted : Bool
  deposit : DepositWitness
  pending : BurnInsert
  crossout : CrossoutWitness
  ethMsg : EthMsgWitness
  oldIndex : Nat
  oldPath : List Word
  receiptSpent : SpentInsert

/-- The `i`-th append path. -/
def TxWitness.path (w : TxWitness) (i : Nat) : List Word := w.paths.getD i []

/-- The constants of a cycle: the deployment's binding, the header the batch builds on, and the roots attested
on Ethereum (zero in a forward batch). -/
structure ScanCtx where
  chainBinding : Word
  anchor : Word
  crossoutSetRoot : Word
  ethMsgSetRoot : Word

section

variable (G : BatchCrypto) (B : Chain) (ctx : ScanCtx)

/-! ## Burns -/

/-- A claimed duplicate is a member; anything else is inserted. The form of every spent-set fold. -/
def foldSpentOrMember (nu : Word) (w : SpentInsert) : Guest Unit := do
  let s ← get
  if w.lowValue = nu then
    assert (imtMembership G.toKeccak s.spentRoot nu w.lowNext w.lowIndex w.lowPath)
  else expect (foldSpent G.toKeccak nu w)

inductive DepositOutcome
  | folded
  | alreadyConsumed
  | unverified
deriving DecidableEq

/-- The part of the verdict before the cross-lane gate (reflect.rs:521-690): the supply leaves. -/
def depositLeaves (asset : Word) (w : DepositWitness) : Option (ProvenanceBlob × List (Word × Word)) := do
  let pb ← w.blob
  if w.provHeaders.isEmpty ∨ B.verifyHeaderChain w.provHeaders ≠ some ctx.anchor then none
  else if !pb.prov.all (fun c => w.provHeaders.any (fun h => B.extractMerkleRoot h == c.confirmedBlockRoot)) then none
  else do
    let leaves ← supplyLeaves G.toCrypto B w.provHeaders asset pb
    if pb.poolMemberships ≠ 0 then none else some (pb, leaves)

/-- The verdict of `fold_burn_deposit` (reflect.rs:521-746). -/
def depositVerdict (asset nu : Word) (burned : OutPoint) (w : DepositWitness) : Guest DepositOutcome :=
  match depositLeaves G B ctx asset w with
  | none => pure .unverified
  | some (pb, leaves) => do
    let s ← get
    let burnedOutpoint := outpointKey G.toKeccak burned
    if w.coIsMember then
      assert (imtMembership G.toKeccak s.consumedOutpointsRoot burnedOutpoint w.coNext w.coIndex w.coPath)
      pure .alreadyConsumed
    else
      assert (imtNonMembership G.toKeccak s.consumedOutpointsRoot burnedOutpoint w.coValue w.coNext w.coIndex w.coPath)
      match verifyProvenanceLeaves G.toCrypto B asset leaves burnedOutpoint pb.prov with
      | none => pure .unverified
      | some realCh =>
        assert (commitmentHash G.toKeccak w.burnedCx w.burnedCy = realCh)
        if nullifier G.toKeccak (leaf G.toKeccak asset w.burnedCx w.burnedCy burnedOutpoint) ≠ nu then pure .unverified
        else pure .folded

/-- The tail of `fold_burn_deposit` (reflect.rs:764-808): the deposit's leaf and its burn record, unless the record
is there. -/
def recordDeposit (srcLeaf burnId dest : Word) (w : DepositWitness) : Guest Unit := do
  let s ← get
  let b := w.burnInsert
  if b.lowKey = burnId then
    assert (utxoMembership G.toKeccak s.burnRoot burnId b.lowNext b.lowValue b.lowIndex b.lowPath)
  else
    expect (foldNoteAppend G.toKeccak srcLeaf w.notePath)
    expect (foldBurn G.toKeccak burnId dest b)

/-- `fold_burn_deposit` (reflect.rs:509). -/
def foldBurnDeposit (asset nu dest target : Word) (burned : OutPoint) (w : DepositWitness) : Guest DepositOutcome := do
  let verdict ← depositVerdict G B ctx asset nu burned w
  if verdict ≠ .folded then pure verdict
  else
    foldSpentOrMember G nu w.spentInsert
    let srcLeaf := leaf G.toKeccak asset w.burnedCx w.burnedCy (outpointKey G.toKeccak burned)
    recordDeposit G srcLeaf (bridgeBurnId G.toKeccak burnSourceDeposit burned srcLeaf target) dest w
    pure .folded

/-- The burn branch (reflect.rs:1261-1378). -/
def scanBurn (tx : Tx) (w : TxWitness) (spends : List DetectedSpend) (asset nu dest target : Word) : Guest Unit :=
  match spends with
  | [d] => do
    if d.nu = nu ∧ d.asset = asset then
      let srcLeaf := d.note.leaf G.toKeccak d.cx d.cy ctx.chainBinding
      let burnId := bridgeBurnId G.toKeccak burnSourceReflected d.prev srcLeaf target
      let s ← get
      let b := w.burn
      if b.lowKey = burnId then
        assert (utxoMembership G.toKeccak s.burnRoot burnId b.lowNext b.lowValue b.lowIndex b.lowPath)
      else expect (foldBurn G.toKeccak burnId dest b)
    else pure ()
  | [] => do
    assert w.burnTxCommitted
    match tx.inputs.head? with
    | none => pure ()
    | some burned =>
      let outcome ← foldBurnDeposit G B ctx asset nu dest target burned w.deposit
      if outcome = .unverified then
        expect (foldPendingDeposit G.toKeccak (outpointKey G.toKeccak burned)
          (pendingDepositValue G.toKeccak asset nu dest target) w.pending)
      else pure ()
  | _ => pure ()

/-! ## Transfers -/

/-- The spends the kernel of a transfer covers (reflect.rs:1393-1403). -/
def kernelSpends (tx : Tx) (e : CxferEnvelope) (spends : List DetectedSpend) : List DetectedSpend :=
  match e.assetInputCount with
  | none => spends
  | some count =>
    if tx.inputs.length < 1 + count then []
    else (((tx.inputs.drop 1).take count).mapM fun op => spends.find? (fun d => decide (d.prev = op))).getD []

/-- What the three transfer branches share: every input of the asset, an admissible envelope, canonical output
positions and conservation; then `fold` with the auth keys of the outputs. -/
def scanTransfer (tx : Tx) (w : TxWitness) (ins : List DetectedSpend) (asset : Word) (commitments : List Bytes)
    (vouts : Option (List Nat)) (admissible : Bool) (rangeProof kernelSig : Bytes)
    (fold : List OutPoint → List Point → List Word → List (List Word) → List Nat → List Word → Fold Unit) : Guest Unit := do
  let inPoints ← orPanic (ins.mapM fun d => G.fromAffineXy d.cx d.cy)
  let inOutpoints := ins.map (·.prev)
  let inAssets := ins.map (·.asset)
  match vouts with
  | none => pure ()
  | some vouts =>
    if !ins.isEmpty && inAssets.all (· == asset) && admissible &&
        verifyCxferConservation G.toCrypto asset inOutpoints inPoints commitments rangeProof kernelSig then
      let paths := (List.range commitments.length).map w.path
      expect (fold inOutpoints inPoints inAssets paths vouts (vouts.map tx.outputAuth))
    else pure ()

/-- The CXFER branch (reflect.rs:1386-1502). -/
def scanCxfer (tx : Tx) (w : TxWitness) (spends : List DetectedSpend) (e : CxferEnvelope) : Guest Unit :=
  let ins := kernelSpends tx e spends
  let n := e.commitments.length
  let vouts := (List.range n).mapM fun i => canonicalOutputVout e.opcode i n
  let destBound := e.opcode ∉ [0x22, 0x23] || tx.noteSpendsBindOutputs (ins.map (·.prev))
  scanTransfer G tx w ins e.asset e.commitments vouts (isLegacyBridgeAsset e.asset && destBound) e.rangeProof e.kernelSig
    fun ops pts assets paths vouts auths =>
      foldCxfer G.toCrypto e.asset ops pts assets tx.txid e.commitments paths vouts auths e.rangeProof e.kernelSig

/-- The bound CXFER branch (reflect.rs:1511-1567). -/
def scanCxferBound (tx : Tx) (w : TxWitness) (spends : List DetectedSpend) (e : CxferBoundEnvelope) : Guest Unit :=
  let n := e.commitments.length
  let vouts := (List.range n).mapM fun i => canonicalOutputVout 0x39 i n
  let admissible := e.target == ctx.chainBinding && tx.noteSpendsBindOutputs (spends.map (·.prev))
  scanTransfer G tx w spends e.asset e.commitments vouts admissible e.rangeProof e.kernelSig
    fun ops pts assets paths vouts auths =>
      foldCxferBound G.toCrypto e.asset ctx.chainBinding ops pts assets tx.txid e.commitments paths vouts auths e.rangeProof
        e.kernelSig

/-- The bid branch (reflect.rs:1702-1765). -/
def scanBid (tx : Tx) (w : TxWitness) (spends : List DetectedSpend) (e : BidEnvelope) : Guest Unit :=
  let n := e.commitments.length
  let vouts := (List.range n).mapM fun i => canonicalBidOutputVout e.opcode i n e.hasRefund
  scanTransfer G tx w spends e.asset e.commitments vouts true e.rangeProof e.kernelSig
    fun ops pts assets paths vouts auths =>
      foldCxfer G.toCrypto e.asset ops pts assets tx.txid e.commitments paths vouts auths e.rangeProof e.kernelSig

/-! ## Swaps -/

/-- `c_in_real` (reflect.rs:1789): the spent note is the envelope's input commitment. -/
def cInReal (d : DetectedSpend) (cIn : Bytes) : Bool :=
  match G.fromAffineXy d.cx d.cy, G.decompress cIn with
  | some x, some y => x == y
  | _, _ => false

/-- The swap branch (reflect.rs:1772-1845): the first spend whose fold succeeds. -/
def scanSwapVar (tx : Tx) (w : TxWitness) (e : SwapVarEnvelope) : List DetectedSpend → Guest Unit
  | [] => pure ()
  | d :: ds => do
    let s ← get
    match cInReal G d e.cIn, s.pools.get e.poolId with
    | true, some pool =>
      let changePath := if isSentinel e.cChangeOrSentinel then [] else w.path 1
      let tipPath := w.path (if isSentinel e.cChangeOrSentinel then 1 else 2)
      let r ← attempt (foldSwapVar G.toCrypto pool e d.prev d.asset (tx.dest G.toKeccak 1) (tx.dest G.toKeccak 2)
        (tx.dest G.toKeccak 3) (tx.dest G.toKeccak 4) (w.path 0) changePath tipPath s.height)
      match r with
      | .ok pool => expect (setPool e.poolId pool)
      | .error _ => scanSwapVar tx w e ds
    | _, _ => scanSwapVar tx w e ds

/-- The route branch (reflect.rs:1852-1889). -/
def scanSwapRoute (tx : Tx) (w : TxWitness) (e : SwapRouteEnvelope) : List DetectedSpend → Guest Unit
  | [] => pure ()
  | d :: ds => do
    let s ← get
    if cInReal G d e.cIn then
      let ok ← succeeds (foldSwapRoute G.toCrypto e d.prev d.asset (tx.dest G.toKeccak 1) (tx.dest G.toKeccak 2) (w.path 0)
        s.height)
      if ok then pure () else scanSwapRoute tx w e ds
    else scanSwapRoute tx w e ds

/-- The batch branch (reflect.rs:1897-1922): `n` receipt paths, then `n` refund paths. -/
def scanSwapBatch (tx : Tx) (w : TxWitness) (spends : List DetectedSpend) (e : SwapBatchEnvelope) : Guest Unit := do
  let s ← get
  let n := e.nIntents
  let ix := List.range n
  swallow (foldSwapBatch G e spends (ix.map fun i => tx.dest G.toKeccak (1 + i)) (ix.map fun i => tx.dest G.toKeccak (1 + n + i))
    (ix.map w.path) (ix.map fun i => w.path (n + i)) s.height)

/-! ## Liquidity -/

/-- `pool_ids_for_assets` (lib.rs:4298). -/
def poolIdsForAssets (pools : SortedMap Word PoolReserveState) (a b : Word) : List Word :=
  (pools.entries.filter fun (_, p) => p.assetA == a && p.assetB == b).map Prod.fst

/-- The outpoints and points of the spends of one asset (reflect.rs:1975). -/
def collect (spends : List DetectedSpend) (asset : Word) : List OutPoint × Option (List Point) :=
  let l := spends.filter (·.asset == asset)
  (l.map (·.prev), l.mapM fun d => G.fromAffineXy d.cx d.cy)

/-- The side of an LP-add on the wire's asset A (`first`) or B, with its refund output at `vout`. -/
def lpSide (tx : Tx) (e : LpAddEnvelope) (first : Bool) (vout : Nat) (ops : List OutPoint) (pts : List Point) : LpSide :=
  { asset := if first then e.assetA else e.assetB
    delta := if first then e.deltaA else e.deltaB
    inputOutpoints := ops
    inputCommitments := pts
    kernelSig := if first then e.kernelSigA else e.kernelSigB
    refundXonly := tx.outputAuth vout
    refundBlinding := if first then e.refundABlinding else e.refundBBlinding
    refundOutpoint := outpointKey G.toKeccak (tx.txid, U.wrap 32 vout) }

/-- The shares an add has minted, by the pool's record before and after it (reflect.rs:2074-2087). The shares a
crystallized fee adds are not the provider's. -/
def lpSharesMinted (variant : Nat) (prePool : Option PoolReserveState) (p : PoolReserveState) : U 64 :=
  let preShares := (prePool.map (·.totalShares)).getD 0
  let preAccrued := (prePool.map (·.protocolFeeAccrued)).getD 0
  if variant = 1 then U.saturate 64 (p.totalShares.val - ammMinimumLiquidity)
  else U.saturatingSub (U.saturatingSub p.totalShares preShares) (U.saturatingSub p.protocolFeeAccrued preAccrued)

/-- After an add that folded (reflect.rs:2069-2141): the share note at the output 0, or the pool as it was. -/
def scanLpShares (tx : Tx) (w : TxWitness) (e : LpAddEnvelope) (pid : Word) (prePool : Option PoolReserveState) : Guest Unit := do
  let s ← get
  match s.pools.get pid with
  | none => pure ()
  | some p =>
    let lpShares := lpSharesMinted e.variant prePool p
    if 0 < lpShares.val ∧ ¬ (e.variant = 1 ∧ prePool.isSome) then
      expect (foldLpShareMint G.toCrypto pid lpShares (G.pedersenCommitCompressed lpShares.val e.shareR) e.shareR
        (w.path 0) (outpointKey G.toKeccak (tx.txid, 0)) (tx.outputAuth 0))
    else match prePool with
      | some old => expect (setPool pid old)
      | none => modify fun s => { s with pools := s.pools.erase pid }

/-- The LP-add branch (reflect.rs:1929-2146). -/
def scanLpAdd (tx : Tx) (w : TxWitness) (spends : List DetectedSpend) (e : LpAddEnvelope) : Guest Unit :=
  match ammCanonicalPair e.assetA e.assetB with
  | none => pure ()
  | some (ca, cb) => do
    let inOrder := decide (e.assetA = ca)
    let vA := if e.variant = 1 then 2 else 1
    let vB := if e.variant = 1 then 3 else 2
    let (aOps, aPts) := collect G spends ca
    let (bOps, bPts) := collect G spends cb
    let aPts ← orPanic aPts
    let bPts ← orPanic bPts
    let a := lpSide G tx e inOrder (if inOrder then vA else vB) aOps aPts
    let b := lpSide G tx e (!inOrder) (if inOrder then vB else vA) bOps bPts
    let s ← get
    let poolId := if e.variant = 1 then
        ammDerivePoolIdFull G.toCrypto ca cb e.feeBps e.capabilityFlags e.protocolFeeAddress e.protocolFeeBps
      else (poolIdsForAssets s.pools ca cb).find? fun pid =>
        a.kernelOk G.toCrypto 0 pid e.shareAmount e.shareCsecp e.expiryHeight &&
          b.kernelOk G.toCrypto 0 pid e.shareAmount e.shareCsecp e.expiryHeight
    match poolId with
    | none => pure ()
    | some pid =>
      if tx.noteSpendsBindOutputs (spends.map (·.prev)) then
        let ok ← succeeds (foldLpAdd G.toCrypto e pid a b true s.height (w.path 0) (w.path 1))
        if ok then scanLpShares G tx w e pid (s.pools.get pid) else pure ()
      else pure ()

/-- The pools an LP-remove may name, in registry order (reflect.rs:2195-2263). -/
def scanLpRemovePools (tx : Tx) (w : TxWitness) (spends : List DetectedSpend) (e : LpRemoveEnvelope) (inOrder : Bool) :
    List Word → Guest Unit
  | [] => pure ()
  | pid :: pids => do
    let dA := if inOrder then e.deltaA else e.deltaB
    let dB := if inOrder then e.deltaB else e.deltaA
    let recvA := if inOrder then e.recvASecp else e.recvBSecp
    let recvB := if inOrder then e.recvBSecp else e.recvASecp
    let rA := if inOrder then e.rRecvA else e.rRecvB
    let rB := if inOrder then e.rRecvB else e.rRecvA
    let refund := tx.dest G.toKeccak 2
    let (ops, pts) := collect G spends (ammDeriveLpAssetId G.toCrypto pid)
    let pts ← orPanic pts
    if lpRemoveKernelVerify G.toCrypto pid e.shareAmount dA dB recvA recvB ops pts refund.auth e.kernelSig then
      if tx.noteSpendsBindOutputs (spends.map (·.prev)) then
        swallow (foldLpRemove G.toCrypto pid e.shareAmount dA dB recvA rA recvB rB ops pts e.kernelSig (tx.dest G.toKeccak 0)
          (tx.dest G.toKeccak 1) refund (w.path 0) (w.path 1) (w.path 2))
      else pure ()
    else scanLpRemovePools tx w spends e inOrder pids

/-- The LP-remove branch (reflect.rs:2153-2265). -/
def scanLpRemove (tx : Tx) (w : TxWitness) (spends : List DetectedSpend) (e : LpRemoveEnvelope) : Guest Unit :=
  match ammCanonicalPair e.assetA e.assetB with
  | none => pure ()
  | some (ca, cb) => do
    let s ← get
    scanLpRemovePools G tx w spends e (decide (e.assetA = ca)) (poolIdsForAssets s.pools ca cb)

/-! ## Farms -/

/-- `window_ok` (reflect.rs:2323). -/
def farmWindowOk (e : FarmInitEnvelope) : Bool :=
  let start := e.startHeight.val
  let stop := e.endHeight.val
  let rate := e.rewardPerBlock.val
  stop != 0 && start < stop && rate * (stop - start) < 2 ^ 64 && rate ≤ farmRateMax && stop - start ≤ farmWindowMax &&
    rate * (stop - start) < farmRateWindowMax && rate * (stop - start) ≤ e.rewardTotal.val

/-- The farm-init branch (reflect.rs:2271-2378): the first spend of the reward asset the launcher signed. -/
def scanFarmInit (tx : Tx) (w : TxWitness) (e : FarmInitEnvelope) : List DetectedSpend → Guest Unit
  | [] => pure ()
  | d :: ds => do
    match decide (d.asset = e.rewardAsset), G.fromAffineXy d.cx d.cy with
    | true, some cInPt =>
      let farmId := ammDeriveFarmId G.toCrypto e.poolId e.launcherPubkey e.rewardAsset e.farmNonce
      let msg := farmInitMsg G.toCrypto farmId e (ammFundingHash G.toCrypto [d.prev] e.kernelSig)
      if !G.bip340Verify e.launcherSig msg (xOnly e.launcherPubkey) then scanFarmInit tx w e ds
      else if farmWindowOk e then
        let r ← attempt (foldFarmInit G.toCrypto e farmId d.prev (G.compress cInPt) true
          (outpointKey G.toKeccak (tx.txid, 1)) (w.path 0))
        match r with
        | .ok true => swallow (foldFarmInitRewards G.toCrypto farmId e.rewardPerBlock e.launcherPubkey e.poolId
            (U.wrap 64 e.startHeight.val) (U.wrap 64 e.endHeight.val) e.rewardTotal)
        | _ => pure ()
      else pure ()
    | _, _ => scanFarmInit tx w e ds

/-- The bond branch (reflect.rs:2389-2458). -/
def scanLpBond (tx : Tx) (w : TxWitness) (spends : List DetectedSpend) (e : LpBondEnvelope) : Guest Unit := do
  let s ← get
  match s.farmRewards.get e.farmId with
  | none => pure ()
  | some st =>
    let (ops, pts) := collect G spends st.lpAsset
    let msg := lpBondMsg G.toCrypto e (ammFundingHash G.toCrypto ops e.kernelSig)
    let bonderOk := G.bip340Verify e.bonderSig msg (xOnly e.bonderPubkey)
    let bondBacked := match pts with
      | some pts => lpBondKernelVerify G.toCrypto e.farmId st.lpAsset e.bondAmount ops pts e.kernelSig
      | none => false
    if bondBacked && bonderOk then
      swallow (foldLpBond G.toCrypto e.farmId e.bondAmount e.ownerCommit e.nonce (w.path 0) e.refundBlinding e.refundDestXonly
        (outpointKey G.toKeccak (tx.txid, 1)))
    else pure ()

/-- Undo the re-stamp of a harvest whose treasury draw failed (reflect.rs:2512-2519). -/
def undoHarvest (farmId : Word) (snap : ScanReflection) : Guest Unit :=
  match snap.farmRewards.get farmId with
  | some st => do
    expect (setFarm farmId st)
    modify fun s => { s with farmEntries := snap.farmEntries }
  | none => modify fun s => { s with farmEntries := snap.farmEntries }

/-- The harvest branch (reflect.rs:2467-2522). -/
def scanLpHarvest (tx : Tx) (w : TxWitness) (e : LpHarvestEnvelope) : Guest Unit := do
  let snap ← get
  let destSpk := tx.outputScriptpubkey 1
  let authorized ← succeeds (foldLpHarvest G.toCrypto e w.oldIndex w.oldPath destSpk)
  if authorized then
    let paid ← succeeds (foldHarvest G.toCrypto e.farmId e.rewardAmount e.rewardR (outpointKey G.toKeccak (tx.txid, 1))
      (w.path 0) destSpk)
    if paid then pure () else undoHarvest e.farmId snap
  else pure ()

/-- The farm-refund branch (reflect.rs:2529-2545). -/
def scanFarmRefund (tx : Tx) (w : TxWitness) (e : FarmRefundEnvelope) : Guest Unit :=
  swallow (foldFarmRefund G.toCrypto e (outpointKey G.toKeccak (tx.txid, 1)) (w.path 0) (tx.outputScriptpubkey 1))

/-- The unbond branch (reflect.rs:2553-2569). -/
def scanLpUnbond (tx : Tx) (w : TxWitness) (e : LpUnbondEnvelope) : Guest Unit :=
  swallow (foldLpUnbond G.toCrypto e w.oldIndex w.oldPath w.receiptSpent (outpointKey G.toKeccak (tx.txid, 1)) (w.path 0)
    (tx.outputScriptpubkey 1))

/-- The fee-claim branch (reflect.rs:2578-2601). -/
def scanProtocolFeeClaim (tx : Tx) (w : TxWitness) (e : ProtocolFeeClaimEnvelope) : Guest Unit :=
  swallow (foldProtocolFeeClaim G.toCrypto e (tx.dest G.toKeccak 0) (w.path 0))

/-! ## One transaction -/

/-- The spent-set loop (reflect.rs:1242-1254). -/
def scanSpents : List DetectedSpend → List SpentInsert → Guest Unit
  | [], _ => pure ()
  | _ :: _, [] => panic
  | d :: ds, w :: ws => do
    foldSpentOrMember G d.nu w
    scanSpents ds ws

/-- The redeem branch (reflect.rs:1172-1205), before the lock scan. -/
def scanCbtcRedeem (tx : Tx) (spends : List DetectedSpend) : Guest Unit :=
  match tx.envelope, collect G spends cbtcZkAssetId with
  | some (.cbtcRedeem lock vBtc kernelSig), (ops, some pts) =>
    swallow (foldCbtcRedeem G.toCrypto lock vBtc tx.inputs ops pts kernelSig)
  | _, _ => pure ()

/-- `T_ETH_CALL` (reflect.rs:1656-1674). -/
def scanEthCall (w : TxWitness) (msgId ns : Word) (sender : Bytes) (destChain : Nat) (payloadHash : Word) (payload : Bytes) :
    Guest Unit :=
  if destChain = 1 ∧ G.hash payload = payloadHash then
    let record := G.kn [beBytes 2 destChain, ns.bytes, sender, payloadHash.bytes]
    swallow (foldEthMessage G.toCrypto msgId record ctx.ethMsgSetRoot w.ethMsg)
  else pure ()

/-- The dispatch on the envelope after the spent-set loop. -/
def scanEnvelope (tx : Tx) (w : TxWitness) (spends : List DetectedSpend) : Guest Unit :=
  match tx.envelope with
  | none => pure ()
  | some (.cetch _ _ _) => pure ()
  | some (.cmint _) => pure ()
  | some (.burn asset nu dest target) => scanBurn G B ctx tx w spends asset nu dest target
  | some (.cxfer e) => scanCxfer G tx w spends e
  | some (.cxferBound e) => scanCxferBound G ctx tx w spends e
  | some (.crossoutMint asset claimId cx cy) =>
    swallow (foldCrossout G.toCrypto asset claimId cx cy ctx.crossoutSetRoot (outpointKey G.toKeccak (tx.txid, 0))
      (tx.outputAuth 0) w.crossout)
  | some (.cbtcLock asset lockVout cx cy) => swallow (foldCbtcLock G.toCrypto asset cx cy tx lockVout)
  | some (.cbtcRedeem _ _ _) => pure ()
  | some (.ethCall msgId ns sender destChain payloadHash payload) =>
    scanEthCall G ctx w msgId ns sender destChain payloadHash payload
  | some (.bid e) => scanBid G tx w spends e
  | some (.swapVar e) => scanSwapVar G tx w e spends
  | some (.swapRoute e) => scanSwapRoute G tx w e spends
  | some (.swapBatch e) => scanSwapBatch G tx w spends e
  | some (.lpAdd e) => scanLpAdd G tx w spends e
  | some (.lpRemove e) => scanLpRemove G tx w spends e
  | some (.farmInit e) => scanFarmInit G tx w e spends
  | some (.lpBond e) => scanLpBond G tx w spends e
  | some (.lpHarvest e) => scanLpHarvest G tx w e
  | some (.farmRefund e) => scanFarmRefund G tx w e
  | some (.lpUnbond e) => scanLpUnbond G tx w e
  | some (.protocolFeeClaim e) => scanProtocolFeeClaim G tx w e

/-- The vin scan (reflect.rs:1143-1254): the notes the transaction spends, retired. -/
def scanVin (tx : Tx) (w : TxWitness) : Guest (List DetectedSpend) := do
  let spends ← expect (scanTxSpends G.toCrypto ctx.chainBinding tx.inputs w.openings)
  scanCbtcRedeem G tx spends
  let _ ← expect (foldCbtcLockSpends G.toCrypto tx.inputs)
  scanSpents G spends w.spents
  pure spends

/-- One iteration of the transaction loop (reflect.rs:1143-2602). -/
def scanTx (tx : Tx) (w : TxWitness) : Guest Unit := do
  let spends ← scanVin G ctx tx w
  scanEnvelope G B ctx tx w spends

/-- The transaction loop of one block. -/
def scanTxs : List Tx → List TxWitness → Guest Unit
  | [], _ => pure ()
  | _ :: _, [] => panic
  | tx :: txs, w :: ws => do
    scanTx G B ctx tx w
    scanTxs txs ws

end

end Tacit
