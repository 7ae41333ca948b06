import Tacit.Reflection.Folds
/-!
# `fold_swap_batch` (swap_batch.rs)

The batch proof (Groth16 over the circuit's public signals), the cross-curve sigma and the curve equation of
the aggregate identity are parameters. A batch whose intents are matched and signed but which does not clear
returns every input.
-/
namespace Tacit

open Prog

/-- The proof systems of a batch. -/
structure BatchCrypto extends Crypto where
  /-- `babyjubjub::verify_xcurve`. -/
  verifyXcurve : Bytes → Bytes → Bytes → Bool
  /-- `swap_batch_public_signals`, `parse_g16_proof` and `groth16_bn254_verify` (swap_batch.rs:64-132), at the
  pool's id and reserves. -/
  groth16Ok : SwapBatchEnvelope → Word → U 64 → U 64 → Bool
  /-- `Σ ins − Σ outs ∓ mag·H = r·G` (lib.rs:1170-1199, :1103); sign 0 subtracts. -/
  aggregateBalances : List Point → List Point → Nat → Nat → Word → Bool

section

variable (G : BatchCrypto)

/-- `swap_batch_aggregate_identity` (lib.rs:1092): for asset A the inputs are the intents of direction 0. -/
def swapBatchAggregateIdentity (e : SwapBatchEnvelope) (inDirection sign : Nat) (mag : U 64) (tipC : Bytes) (rNet : Word) : Bool :=
  let sides := e.intents.zip e.receipts
  match (sides.filter (fun x => x.1.direction == inDirection)).mapM (fun x => G.decompress x.1.cInSecp),
      (sides.filter (fun x => x.1.direction == 1 - inDirection)).mapM (fun x => G.decompress x.2.cOutSecp),
      G.decompress tipC with
  | some ins, some outs, some tip =>
    e.intents.length == e.receipts.length && G.aggregateBalances ins (outs ++ [tip]) sign mag.val rNet
  | _, _, _ => false

/-- `apply_signed` (swap_batch.rs:134). -/
def applySigned (reserve : U 64) (sign : Nat) (mag : U 64) : Option (U 64) :=
  if sign = 0 then U.checkedAdd reserve mag else U.checkedSub reserve mag

/-- The spend an intent names: unused, of its input asset and commitment, under its signature. -/
def batchMatched (spends : List DetectedSpend) (used : List Nat) (poolId expectedAsset : Word) (inPt : Point)
    (it : SwapBatchIntent) (receiptSpk refundSpk : Bytes) : Option Nat :=
  (List.range spends.length).find? fun j =>
    match spends[j]? with
    | none => false
    | some sp => !used.contains j && sp.asset == expectedAsset && G.fromAffineXy sp.cx sp.cy == some inPt &&
        G.bip340Verify it.intentSig (swapBatchIntentMsg G.toCrypto poolId it sp.prev receiptSpk refundSpk)
          (xOnly it.traderPubkey)

/-- The matching loop (swap_batch.rs:255-349): the spends used, and whether an intent has expired. -/
def batchIntents (pool : PoolReserveState) (poolId : Word) (spends : List DetectedSpend) (height : U 64) :
    List (SwapBatchIntent × NoteDest × NoteDest) → List Nat → Bool → Option (List Nat × Bool)
  | [], used, anyExpired => some (used, anyExpired)
  | (it, receipt, refund) :: t, used, anyExpired =>
    if 1 < it.direction then none
    else do
      let expectedAsset := if it.direction = 0 then pool.assetA else pool.assetB
      let inPt ← G.decompress it.cInSecp
      let j ← batchMatched G spends used poolId expectedAsset inPt it (receipt.spk.getD []) (refund.spk.getD [])
      if !G.verifyXcurve it.inXcurveSigma it.cInSecp it.cInBjj then none
      else if receipt.auth = 0 then none
      else if refund.auth = 0 then none
      else batchIntents pool poolId spends height t (j :: used) (anyExpired || expired it.expiryHeight height)

/-- The receipt checks (swap_batch.rs:370-381). -/
def batchReceiptOk (r : SwapBatchReceipt) : Bool :=
  G.verifyXcurve r.outXcurveSigma r.cOutSecp r.cOutBjj &&
    match G.decompress r.cOutSecp with
    | none => false
    | some p => G.verifyRange [p] r.rangeProof

/-- The fee floor of a one-sided net move (swap_batch.rs:418-432). -/
def batchFeeFloorOk (e : SwapBatchEnvelope) (pool : PoolReserveState) (newA newB : U 64) : Bool :=
  let kPre := pool.reserveA.val * pool.reserveB.val
  if e.deltaANetSign = 0 ∧ e.deltaBNetSign = 1 then
    feeClearingFloorOk pool.reserveA.val e.deltaANetMag.val newB.val kPre e.feeBps.val
  else if e.deltaBNetSign = 0 ∧ e.deltaANetSign = 1 then
    feeClearingFloorOk pool.reserveB.val e.deltaBNetMag.val newA.val kPre e.feeBps.val
  else true

/-- The clearing against the current reserves (swap_batch.rs:395-501): the new reserves of a batch that
clears. -/
def batchClears (e : SwapBatchEnvelope) (poolId : Word) (pool : PoolReserveState) : Option (U 64 × U 64) := do
  let newA ← applySigned pool.reserveA e.deltaANetSign e.deltaANetMag
  let newB ← applySigned pool.reserveB e.deltaBNetSign e.deltaBNetMag
  if newA = 0 ∨ newB = 0 then none
  else if newA.val * newB.val < pool.reserveA.val * pool.reserveB.val then none
  else if !batchFeeFloorOk e pool newA newB then none
  else if !G.groth16Ok e poolId pool.reserveA pool.reserveB then none
  else
    let tipA ← G.decompress e.tipACSecp
    let tipB ← G.decompress e.tipBCSecp
    if !G.verifyPedersenOpening tipA e.tipAAmount.val e.rTipA || !G.verifyPedersenOpening tipB e.tipBAmount.val e.rTipB then none
    else if !swapBatchAggregateIdentity G e 0 e.deltaANetSign e.deltaANetMag e.tipACSecp e.rNetA then none
    else if !swapBatchAggregateIdentity G e 1 e.deltaBNetSign e.deltaBNetMag e.tipBCSecp e.rNetB then none
    else some (newA, newB)

/-- `onboard_batch_refunds` (swap_batch.rs:160). -/
def onboardBatchRefunds (pool : PoolReserveState) (l : List (SwapBatchIntent × NoteDest × List Word)) : Fold Unit :=
  forEach l fun (it, refund, path) =>
    onboardNote G.toCrypto (if it.direction = 0 then pool.assetA else pool.assetB) it.cInSecp refund.auth refund.outpoint
      path "" ""

/-- `fold_swap_batch` (swap_batch.rs:191); `Err` is its `false`. Receipt `i` is the output `i + 1`, refund `i` the
output `n + 1 + i`. -/
def foldSwapBatch (e : SwapBatchEnvelope) (spends : List DetectedSpend) (receipts refunds : List NoteDest)
    (receiptPaths refundPaths : List (List Word)) (height : U 64) : Fold Unit := do
  check (e.intents.length ≠ e.nIntents ∨ e.receipts.length ≠ e.nIntents ∨ receiptPaths.length ≠ e.nIntents ∨
    receipts.length ≠ e.nIntents ∨ refunds.length ≠ e.nIntents ∨ refundPaths.length ≠ e.nIntents) ""
  check (1000 < e.feeBps.val) ""
  let (lo, hi) ← orThrow (ammCanonicalPair e.assetA e.assetB) ""
  let poolId ← orThrow (ammDerivePoolIdV1 G.toCrypto lo hi e.feeBps) ""
  let s ← get
  let pool ← orThrow (s.pools.get poolId) ""
  check (!pool.c0Backed ∨ e.assetA ≠ pool.assetA ∨ e.assetB ≠ pool.assetB) ""
  let (used, anyExpired) ← orThrow (batchIntents G pool poolId spends height (e.intents.zip (receipts.zip refunds)) [] false) ""
  let refundAll := onboardBatchRefunds G pool (e.intents.zip (refunds.zip refundPaths))
  if !e.receipts.all (batchReceiptOk G) then refundAll
  else if anyExpired ∨ used.length < spends.length then refundAll
  else match batchClears G e poolId pool with
    | none => refundAll
    | some (newA, newB) =>
      forEach ((e.intents.zip e.receipts).zip (receipts.zip receiptPaths)) fun ((it, r), receipt, path) => do
        let outAsset := if it.direction = 0 then pool.assetB else pool.assetA
        let noteLeaf ← orPanic (reflectedNoteLeaf G.toCrypto outAsset r.cOutSecp receipt.auth)
        let ch ← orPanic (commitmentHashCompressed G.toCrypto r.cOutSecp)
        expect (foldOutput G.toKeccak noteLeaf path receipt.outpoint ch outAsset receipt.auth)
      setPool poolId { pool with reserveA := newA, reserveB := newB }

end

end Tacit
