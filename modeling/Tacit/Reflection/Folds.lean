import Tacit.Bitcoin
import Tacit.Reflection.State
/-!
# The folds of the value operations (lib.rs:4762-6290)

One definition per `fold_*` method, in the source's order. A note the fold creates lands at a `NoteDest`: the
outpoint of a confirmed output with its x-only key and script. Append paths are the prover's; where the source
`expect`s an append, so does the model.
-/
namespace Tacit

open Prog

/-- A confirmed output as the folds read it: outpoint key, P2TR x-only key (zero when not P2TR), script. -/
structure NoteDest where
  outpoint : Word
  auth : Word
  spk : Option Bytes

/-- The output of `tx` at `vout`. -/
def Tx.dest (K : Keccak) (tx : Tx) (vout : Nat) : NoteDest :=
  ⟨outpointKey K (tx.txid, U.wrap 32 vout), tx.outputAuth vout, tx.outputSpk vout⟩

/-- `pools.update`. -/
def setPool (poolId : Word) (p : PoolReserveState) : Fold Unit := do
  let s ← get
  let pools ← orPanic (s.pools.update poolId p)
  modify fun s => { s with pools := pools }

/-- `pools.insert`. -/
def insertPool (poolId : Word) (p : PoolReserveState) : Fold Unit := do
  let s ← get
  let pools ← orPanic (s.pools.insert poolId p)
  modify fun s => { s with pools := pools }

/-- `farm_rewards.update`. -/
def setFarm (farmId : Word) (st : FarmRewardState) : Fold Unit := do
  let s ← get
  let farms ← orPanic (s.farmRewards.update farmId st)
  modify fun s => { s with farmRewards := farms }

/-- A deadline that has passed; zero is a deadline that has. -/
def expired (expiryHeight : U 32) (height : U 64) : Bool := expiryHeight = 0 || expiryHeight.val < height.val

section

variable (C : Crypto)

/-! ## Transfers -/

/-- The body of `fold_cxfer` and `fold_cxfer_bound`; `target` is the binding of the second. -/
def foldCxferTagged (target : Option Word) (what : String) (asset : Word) (inputOutpoints : List OutPoint)
    (inputCommitments : List Point) (inputAssets : List Word) (txid : Word) (outputs : List Bytes)
    (outputPaths : List (List Word)) (outputVouts : List Nat) (outputAuths : List Word)
    (rangeProof kernelSig : Bytes) : Fold Unit := do
  check (outputPaths.length ≠ outputs.length ∨ outputVouts.length ≠ outputs.length ∨
    outputAuths.length ≠ outputs.length) (what ++ ": output witness length mismatch")
  check (inputAssets.length ≠ inputCommitments.length) (what ++ ": input asset length mismatch")
  check (inputAssets.any (· != asset)) (what ++ ": non-asset-preserving (input asset != envelope asset)")
  check (!verifyCxferConservation C asset inputOutpoints inputCommitments outputs rangeProof kernelSig)
    (what ++ ": tx does not conserve value (kernel/range)")
  forEach (outputs.zip (outputPaths.zip (outputVouts.zip outputAuths))) fun (c, path, vout, auth) => do
    let noteLeaf ← orThrow (match target with
      | none => reflectedNoteLeaf C asset c auth
      | some t => reflectedNoteLeafBound C asset c auth t) (what ++ ": output commitment not a curve point")
    let ch ← orThrow (commitmentHashCompressed C c) (what ++ ": output commitment not a curve point")
    foldOutputTagged C.toKeccak target.isSome noteLeaf path (outpointKey C.toKeccak (txid, U.wrap 32 vout)) ch asset auth

/-- `fold_cxfer` (lib.rs:4756). -/
def foldCxfer (asset : Word) (inputOutpoints : List OutPoint) (inputCommitments : List Point)
    (inputAssets : List Word) (txid : Word) (outputs : List Bytes) (outputPaths : List (List Word))
    (outputVouts : List Nat) (outputAuths : List Word) (rangeProof kernelSig : Bytes) : Fold Unit :=
  foldCxferTagged C none "cxfer fold" asset inputOutpoints inputCommitments inputAssets txid outputs outputPaths
    outputVouts outputAuths rangeProof kernelSig

/-- `fold_cxfer_bound` (lib.rs:4807). -/
def foldCxferBound (asset target : Word) (inputOutpoints : List OutPoint) (inputCommitments : List Point)
    (inputAssets : List Word) (txid : Word) (outputs : List Bytes) (outputPaths : List (List Word))
    (outputVouts : List Nat) (outputAuths : List Word) (rangeProof kernelSig : Bytes) : Fold Unit :=
  foldCxferTagged C (some target) "cxfer-bound fold" asset inputOutpoints inputCommitments inputAssets txid outputs
    outputPaths outputVouts outputAuths rangeProof kernelSig

/-! ## Swaps -/

/-- A pool as a direction reads it. -/
structure PoolSides where
  assetIn : Word
  assetOut : Word
  rIn : U 64
  rOut : U 64

def PoolReserveState.sides (p : PoolReserveState) (direction : Nat) : Option PoolSides :=
  if direction = 0 then some ⟨p.assetA, p.assetB, p.reserveA, p.reserveB⟩
  else if direction = 1 then some ⟨p.assetB, p.assetA, p.reserveB, p.reserveA⟩
  else none

/-- Write the reserves back to the sides `sides` read them from. -/
def PoolReserveState.withReserves (p : PoolReserveState) (direction : Nat) (rIn rOut : U 64) : PoolReserveState :=
  if direction = 0 then { p with reserveA := rIn, reserveB := rOut } else { p with reserveB := rIn, reserveA := rOut }

/-- The blinding of a tip note (lib.rs:5273). -/
def swapVarTipBlinding (rReceipt : Word) (tipAmount : U 64) : Word :=
  C.kn [ascii "tacit-swap-var-tip-blinding-v1", rReceipt.bytes, beBytes 8 tipAmount.val]

/-- The authorisation of a swap (lib.rs:5049-5090): the outputs are there, the trader signed them, each is P2TR. -/
def swapVarAuthorized (e : SwapVarEnvelope) (input : OutPoint) (receipt change refund : NoteDest) : Except String Unit := do
  let receiveSpk ← need receipt.spk "swap_var fold: no receipt output at vout 1"
  let changeSpk ← (if isSentinel e.cChangeOrSentinel then .ok [] else
    need change.spk "swap_var fold: no change output at vout 2")
  let refundSpk ← need refund.spk "swap_var fold: no refund output at vout 3"
  refuse (!C.bip340Verify e.intentSig (swapVarIntentMsg C e input receiveSpk changeSpk refundSpk) (xOnly e.traderPubkey))
    "swap_var fold: intent_sig invalid (unauthorized swap)"
  refuse (receipt.auth = 0) "swap_var fold: receipt output is not P2TR (reflected note would have no spend authority)"
  refuse (!isSentinel e.cChangeOrSentinel ∧ change.auth = 0)
    "swap_var fold: change output is not P2TR (reflected change note would have no spend authority)"
  refuse (refund.auth = 0) "swap_var fold: refund output is not P2TR (refund note would have no spend authority)"

/-- The range proof of the change note, if there is one (lib.rs:5158-5166). -/
def swapVarChangeOk (e : SwapVarEnvelope) : Except String Unit :=
  if isSentinel e.cChangeOrSentinel then .ok ()
  else do
    let changePt ← need (C.decompress e.cChangeOrSentinel) "swap_var fold: change not a curve point"
    refuse (!C.verifyRange [changePt] e.rangeProof) "swap_var fold: change range proof"

/-- The price of a swap at the current reserves (lib.rs:5114-5184): the sides it trades and what comes out. -/
def swapVarQuote (pool : PoolReserveState) (e : SwapVarEnvelope) (input : OutPoint) (inputAsset : Word) :
    Except String (PoolSides × U 64) := do
  refuse (!pool.c0Backed) "swap_var fold: pool not C0-backed"
  let q ← need (pool.sides e.direction) "swap_var fold: bad direction"
  refuse (inputAsset ≠ q.assetIn) "swap_var fold: input asset != pool in-side asset"
  let deltaInTotal ← need (U.checkedAdd e.deltaIn e.tipAmount) "swap_var fold: delta_in_total overflow"
  refuse (!swapVarKernelVerify C q.assetIn input e.cIn e.cChangeOrSentinel deltaInTotal e.kernelSig)
    "swap_var fold: kernel verify"
  swapVarChangeOk C e
  refuse (q.rIn = 0 ∨ q.rOut = 0) "swap_var fold: pool has an empty side (no price)"
  let deltaOut ← need (U.ofNat? 64 (getAmountOut e.deltaIn q.rIn q.rOut pool.feeBps.val))
    "swap_var fold: clearing output overflow"
  pure (q, deltaOut)

/-- The receipt and the change become live (lib.rs:5241-5270); the receipt's leaf is appended already. -/
def swapVarNotes (e : SwapVarEnvelope) (q : PoolSides) (receiptHash : Word) (receipt change : NoteDest)
    (changePath : List Word) : Fold Unit :=
  match reflectedNoteLeaf C q.assetIn e.cChangeOrSentinel change.auth with
  | some cLeaf => do
    let cCh ← orThrow (commitmentHashCompressed C e.cChangeOrSentinel) "swap_var fold: change hash"
    expect (foldNoteAppend C.toKeccak cLeaf changePath)
    liveInsert receipt.outpoint ⟨receiptHash, q.assetOut, receipt.auth, false⟩
    liveInsert change.outpoint ⟨cCh, q.assetIn, change.auth, false⟩
  | none => liveInsert receipt.outpoint ⟨receiptHash, q.assetOut, receipt.auth, false⟩

/-- The settler's tip note (lib.rs:5278-5287). -/
def swapVarTip (e : SwapVarEnvelope) (q : PoolSides) (tip : NoteDest) (tipPath : List Word) : Fold Unit :=
  if 0 < e.tipAmount.val then
    onboardNote C q.assetIn (C.pedersenCommitCompressed e.tipAmount.val (swapVarTipBlinding C e.rReceipt e.tipAmount))
      tip.auth tip.outpoint tipPath "swap_var fold: tip not a curve point" "swap_var fold: tip not a curve point"
  else pure ()

/-- The accept branch (lib.rs:5217-5296): reserves, then the notes. -/
def swapVarSettle (pool : PoolReserveState) (e : SwapVarEnvelope) (q : PoolSides) (deltaOut : U 64)
    (receipt change tip : NoteDest) (receiptPath changePath tipPath : List Word) : Fold PoolReserveState := do
  let rInPost ← orThrow (U.checkedAdd q.rIn e.deltaIn) "swap_var fold: in-reserve overflow"
  let rOutPost ← orPanic (U.checkedSub q.rOut deltaOut)
  check (rInPost.val * rOutPost.val < q.rIn.val * q.rOut.val) "swap_var fold: constant-product floor (k decreased)"
  let cReceipt := C.pedersenCommitCompressed deltaOut.val e.rReceipt
  let noteLeaf ← orThrow (reflectedNoteLeaf C q.assetOut cReceipt receipt.auth) "swap_var fold: receipt not a curve point"
  let ch ← orThrow (commitmentHashCompressed C cReceipt) "swap_var fold: receipt not a curve point"
  -- the source stages both appends before it writes; only a panic can part the two
  expect (foldNoteAppend C.toKeccak noteLeaf receiptPath)
  swapVarNotes C e q ch receipt change changePath
  swapVarTip C e q tip tipPath
  pure (pool.withReserves e.direction rInPost rOutPost)

/-- `fold_swap_var` (lib.rs:4995); the result is `pool` as the fold leaves it. -/
def foldSwapVar (pool : PoolReserveState) (e : SwapVarEnvelope) (input : OutPoint) (inputAsset : Word)
    (receipt change refund tip : NoteDest) (receiptPath changePath tipPath : List Word) (height : U 64) :
    Fold PoolReserveState := do
  ofExcept (swapVarAuthorized C e input receipt change refund)
  if expired e.expiryHeight height then
    onboardBtcRefund C inputAsset e.cIn refund.auth refund.outpoint receiptPath
    pure pool
  else
    let (q, deltaOut) ← ofExcept (swapVarQuote C pool e input inputAsset)
    if deltaOut = 0 ∨ deltaOut < e.minOut then
      onboardBtcRefund C inputAsset e.cIn refund.auth refund.outpoint receiptPath
      pure pool
    else swapVarSettle C pool e q deltaOut receipt change tip receiptPath changePath tipPath

/-- What the hop loop of a route carries: the staged pools, the asset and the amount that reach the next hop. -/
structure RouteChain where
  staged : List (Word × PoolReserveState)
  curAsset : Word
  curAmount : U 64
  clearedToNothing : Bool

/-- One hop of `fold_swap_route` (lib.rs:5374-5446); `inMag` is what enters it. -/
def routeHop (pools : SortedMap Word PoolReserveState) (hop : SwapRouteHop) (c : RouteChain)
    (inMag : Except String (U 64)) : Except String RouteChain := do
  refuse (c.staged.any (·.1 == hop.poolId)) "swap_route fold: pool repeated in route"
  let pool ← need (pools.get hop.poolId) "swap_route fold: unknown pool"
  refuse (!pool.c0Backed) "swap_route fold: pool not C0-backed"
  let q ← need (pool.sides hop.direction) "swap_route fold: bad hop direction"
  refuse (q.assetIn ≠ c.curAsset) "swap_route fold: hop input asset breaks the chain"
  let inMag ← inMag
  refuse (q.rIn = 0 ∨ q.rOut = 0) "swap_route fold: hop pool has an empty side (no price)"
  let outMag ← need (U.ofNat? 64 (getAmountOut inMag q.rIn q.rOut pool.feeBps.val)) "swap_route fold: hop clearing overflow"
  if outMag = 0 then pure { c with clearedToNothing := true }
  else
    let rInPost ← need (U.checkedAdd q.rIn inMag) "swap_route fold: in-reserve overflow"
    let rOutPost := U.saturatingSub q.rOut outMag
    refuse (rInPost.val * rOutPost.val < q.rIn.val * q.rOut.val) "swap_route fold: constant-product floor (k decreased)"
    pure ⟨c.staged ++ [(hop.poolId, pool.withReserves hop.direction rInPost rOutPost)], q.assetOut, outMag, false⟩

/-- The hops after the first, until one clears to nothing. -/
def routeHops (pools : SortedMap Word PoolReserveState) : List SwapRouteHop → RouteChain → Except String RouteChain
  | [], c => .ok c
  | hop :: t, c => if c.clearedToNothing then .ok c else do
    let c ← routeHop pools hop c (.ok c.curAmount)
    routeHops pools t c

/-- The whole hop loop: the first hop takes the kernel-bound amount of the trader's note. -/
def routeClear (pools : SortedMap Word PoolReserveState) (e : SwapRouteEnvelope) (input : OutPoint) :
    Except String RouteChain :=
  match e.hops with
  | [] => .ok ⟨[], e.traderInputAsset, 0, false⟩
  | hop :: t => do
    let declared := routeDeltaIn e
    let c ← routeHop pools hop ⟨[], e.traderInputAsset, 0, false⟩ (
      if declared = 0 then .error "swap_route fold: zero route input"
      else if !swapVarKernelVerify C e.traderInputAsset input e.cIn (List.replicate 33 0) declared e.kernelSig then
        .error "swap_route fold: input kernel verify"
      else .ok declared)
    routeHops pools t c

/-- `fold_swap_route` (lib.rs:5310). -/
def foldSwapRoute (e : SwapRouteEnvelope) (input : OutPoint) (inputAsset : Word) (receipt refund : NoteDest)
    (receiptPath : List Word) (height : U 64) : Fold Unit := do
  let receiveSpk ← orThrow receipt.spk "swap_route fold: no receipt output at vout 1"
  let refundSpk ← orThrow refund.spk "swap_route fold: no refund output at vout 2"
  check (!C.bip340Verify e.intentSig (swapRouteIntentMsg C e receiveSpk refundSpk) (xOnly e.traderPubkey))
    "swap_route fold: intent_sig invalid (unauthorized route)"
  check (receipt.auth = 0) "swap_route fold: receipt output is not P2TR (reflected note would have no spend authority)"
  check (refund.auth = 0) "swap_route fold: refund output is not P2TR (refund note would have no spend authority)"
  check (inputAsset ≠ e.traderInputAsset) "swap_route fold: spent input asset != route input asset"
  if expired e.expiryHeight height then
    onboardBtcRefund C inputAsset e.cIn refund.auth refund.outpoint receiptPath
  else
    let s ← get
    let c ← ofExcept (routeClear C s.pools e input)
    if c.clearedToNothing ∨ c.curAmount < e.minOut then
      onboardBtcRefund C inputAsset e.cIn refund.auth refund.outpoint receiptPath
    else
      check (c.curAsset ≠ e.traderOutputAsset) "swap_route fold: final hop asset != route output asset"
      let cReceipt := C.pedersenCommitCompressed c.curAmount.val e.rReceipt
      onboardNote C e.traderOutputAsset cReceipt receipt.auth receipt.outpoint receiptPath
        "swap_route fold: receipt not a curve point" "swap_route fold: receipt not a curve point"
      forEach c.staged fun (pid, pool) => setPool pid pool

/-! ## Liquidity -/

/-- One side of an LP-add: its asset, amount and kernel, the notes it spends, and where its refund lands. -/
structure LpSide where
  asset : Word
  delta : U 64
  inputOutpoints : List OutPoint
  inputCommitments : List Point
  kernelSig : Bytes
  refundXonly : Word
  refundBlinding : Word
  refundOutpoint : Word

/-- The kernel of one side, as `fold_lp_add` and the dispatch check it. -/
def LpSide.kernelOk (sd : LpSide) (variant : Nat) (poolId : Word) (shareAmount : U 64) (shareCsecp : Bytes)
    (expiryHeight : U 32) : Bool :=
  lpAddKernelVerify C variant poolId sd.asset sd.delta shareAmount shareCsecp sd.inputOutpoints sd.inputCommitments
    sd.kernelSig expiryHeight sd.refundXonly sd.refundBlinding

/-- The refund of both sides. -/
def lpRefund (a b : LpSide) (pathA pathB : List Word) : Fold Unit :=
  onboardLpRefundPair C a.asset a.delta a.refundBlinding a.refundXonly a.refundOutpoint pathA b.asset b.delta
    b.refundBlinding b.refundXonly b.refundOutpoint pathB

/-- `malformed` of POOL_INIT (lib.rs:5576). -/
def poolInitMalformed (deltaA deltaB shareAmount : U 64) (protocolFeeBps feeBps : U 16) : Bool :=
  let totalShares := isqrt (deltaA.val * deltaB.val)
  deltaA = 0 || deltaB = 0 || 2 ^ 64 ≤ totalShares || totalShares ≤ ammMinimumLiquidity ||
    shareAmount.val != totalShares - ammMinimumLiquidity || 10000 ≤ protocolFeeBps.val || ammMaxPoolFeeBps < feeBps.val

/-- `fold_lp_add` (lib.rs:5490), with the fields of the envelope it takes. -/
def foldLpAdd (e : LpAddEnvelope) (poolId : Word) (a b : LpSide) (inputsC0Backed : Bool) (height : U 64)
    (refundAPath refundBPath : List Word) : Fold Unit := do
  check (a.asset = b.asset) "lp_add fold: assets must differ"
  check (!a.kernelOk C e.variant poolId e.shareAmount e.shareCsecp e.expiryHeight) "lp_add fold: asset_a kernel verify"
  check (!b.kernelOk C e.variant poolId e.shareAmount e.shareCsecp e.expiryHeight) "lp_add fold: asset_b kernel verify"
  if e.variant = 1 then
    check (a.refundXonly = 0 ∨ b.refundXonly = 0)
      "lp_add fold: POOL_INIT refund output is not P2TR (refund note would have no spend authority)"
    let s ← get
    if (s.pools.get poolId).isSome ∨ expired e.expiryHeight height ∨
        poolInitMalformed a.delta b.delta e.shareAmount e.protocolFeeBps e.feeBps then
      lpRefund C a b refundAPath refundBPath
    else
      let k := a.delta.val * b.delta.val
      insertPool poolId
        { assetA := a.asset, assetB := b.asset, reserveA := a.delta, reserveB := b.delta,
          totalShares := U.wrap 64 (isqrt k), c0Backed := inputsC0Backed, feeBps := e.feeBps,
          capabilityFlags := e.capabilityFlags, protocolFeeBps := e.protocolFeeBps, kLast := k,
          protocolFeeAccrued := 0 }
  else if e.variant = 0 then
    let s ← get
    let pool ← orThrow (s.pools.get poolId) "lp_add fold: LP-add to an unknown pool"
    check (pool.assetA ≠ a.asset ∨ pool.assetB ≠ b.asset) "lp_add fold: LP-add asset mismatch"
    check (a.refundXonly = 0 ∨ b.refundXonly = 0)
      "lp_add fold: refund output is not P2TR (refund note would have no spend authority)"
    let pool ← orPanic pool.crystallizeProtocolFee
    let minted ← orThrow (U.ofNat? 64 (lpAddShares pool.totalShares a.delta b.delta pool.reserveA pool.reserveB))
      "lp_add fold: minted shares overflow"
    if expired e.expiryHeight height ∨ minted = 0 ∨ minted < e.shareAmount then
      lpRefund C a b refundAPath refundBPath
    else
      let reserveA ← orThrow (U.checkedAdd pool.reserveA a.delta) "lp_add fold: reserve_a overflow"
      let reserveB ← orThrow (U.checkedAdd pool.reserveB b.delta) "lp_add fold: reserve_b overflow"
      let totalShares ← orThrow (U.checkedAdd pool.totalShares minted) "lp_add fold: total shares overflow"
      setPool poolId { pool with
        reserveA := reserveA, reserveB := reserveB, totalShares := totalShares,
        c0Backed := pool.c0Backed && inputsC0Backed, kLast := reserveA.val * reserveB.val }
  else throw "lp_add fold: bad variant"

/-- `fold_lp_share_mint` (lib.rs:6294). -/
def foldLpShareMint (poolId : Word) (lpShares : U 64) (shareCsecp : Bytes) (shareR : Word) (sharePath : List Word)
    (shareOutpoint shareAuth : Word) : Fold Unit := do
  check (lpShares = 0) "lp_share_mint: zero shares"
  let sharePt ← orThrow (C.decompress shareCsecp) "lp_share_mint: share not a curve point"
  check (!C.verifyPedersenOpening sharePt lpShares.val shareR) "lp_share_mint: share opening != minted shares"
  let lpAsset := ammDeriveLpAssetId C poolId
  let noteLeaf ← orThrow (reflectedNoteLeaf C lpAsset shareCsecp shareAuth) "lp_share_mint: leaf"
  let ch ← orThrow (commitmentHashCompressed C shareCsecp) "lp_share_mint: hash"
  foldOutput C.toKeccak noteLeaf sharePath shareOutpoint ch lpAsset shareAuth

/-- `fold_lp_remove` (lib.rs:5665). The envelope's fields come in canonical order. -/
def foldLpRemove (poolId : Word) (shareAmount deltaA deltaB : U 64) (recvASecp : Bytes) (rRecvA : Word)
    (recvBSecp : Bytes) (rRecvB : Word) (lpOutpoints : List OutPoint) (lpCommitments : List Point) (kernelSig : Bytes)
    (recvA recvB refund : NoteDest) (recvAPath recvBPath refundPath : List Word) : Fold Unit := do
  let s ← get
  let pool ← orThrow (s.pools.get poolId) "lp_remove fold: unknown pool"
  check (!pool.c0Backed) "lp_remove fold: pool not C0-backed"
  check (refund.auth = 0) "lp_remove fold: refund output is not P2TR (refund note would have no spend authority)"
  let pool ← orPanic pool.crystallizeProtocolFee
  check (pool.totalShares = 0 ∨ shareAmount = 0 ∨ shareAmount > pool.totalShares) "lp_remove fold: bad share amount"
  check (pool.totalShares.val - shareAmount.val < ammMinimumLiquidity) "lp_remove fold: minimum liquidity breach"
  let da := pool.reserveA.val * shareAmount.val / pool.totalShares.val
  let db := pool.reserveB.val * shareAmount.val / pool.totalShares.val
  check (!lpRemoveKernelVerify C poolId shareAmount deltaA deltaB recvASecp recvBSecp lpOutpoints lpCommitments
    refund.auth kernelSig) "lp_remove fold: share-burn kernel"
  if da = 0 ∨ db = 0 then
    onboardNote C (ammDeriveLpAssetId C poolId) (C.pedersenCommitCompressed shareAmount.val rRecvA) refund.auth
      refund.outpoint refundPath "lp_remove fold: refund leaf" "lp_remove fold: refund hash"
  else
    let payA := U.wrap 64 da
    let payB := U.wrap 64 db
    onboardPair C
      ⟨pool.assetA, C.pedersenCommitCompressed payA.val rRecvA, recvA.auth, recvA.outpoint, "lp_remove fold: recv_a leaf",
        "lp_remove fold: recv_a hash"⟩
      ⟨pool.assetB, C.pedersenCommitCompressed payB.val rRecvB, recvB.auth, recvB.outpoint, "lp_remove fold: recv_b leaf",
        "lp_remove fold: recv_b hash"⟩ recvAPath recvBPath
    let reserveA := U.saturatingSub pool.reserveA payA
    let reserveB := U.saturatingSub pool.reserveB payB
    setPool poolId { pool with
      reserveA := reserveA, reserveB := reserveB, totalShares := U.saturatingSub pool.totalShares shareAmount,
      kLast := reserveA.val * reserveB.val }

/-- `fold_protocol_fee_claim` (lib.rs:5817). -/
def foldProtocolFeeClaim (e : ProtocolFeeClaimEnvelope) (claim : NoteDest) (claimPath : List Word) : Fold Unit := do
  let destSpk := claim.spk.getD []
  let s ← get
  let pool ← orThrow (s.pools.get e.poolId) "protocol_fee_claim fold: unknown pool"
  check (!pool.c0Backed) "protocol_fee_claim fold: pool not C0-backed"
  check (pool.protocolFeeBps = 0) "protocol_fee_claim fold: pool has no protocol fee"
  check (ammDerivePoolIdFull C pool.assetA pool.assetB pool.feeBps pool.capabilityFlags e.claimerPubkey
    pool.protocolFeeBps ≠ some e.poolId) "protocol_fee_claim fold: claimer is not the bound fee recipient"
  check (!C.bip340Verify e.claimSig (protocolFeeClaimMsg C e destSpk) (xOnly e.claimerPubkey))
    "protocol_fee_claim fold: claimer signature"
  let pool ← orPanic pool.crystallizeProtocolFee
  check (e.claimAmount = 0 ∨ e.claimAmount ≠ pool.protocolFeeAccrued) "protocol_fee_claim fold: claim != accrued"
  let cPt ← orThrow (C.decompress e.claimCSecp) "protocol_fee_claim fold: claim not a curve point"
  check (!C.verifyPedersenOpening cPt e.claimAmount.val e.claimBlinding)
    "protocol_fee_claim fold: claim opening != claim_amount"
  let lpAsset := ammDeriveLpAssetId C e.poolId
  let auth ← orThrow (p2trXonly destSpk) "protocol_fee_claim fold: claim dest not P2TR"
  onboardNote C lpAsset e.claimCSecp auth claim.outpoint claimPath "protocol_fee_claim fold: claim leaf"
    "protocol_fee_claim fold: claim hash"
  setPool e.poolId { pool with protocolFeeAccrued := 0 }

/-! ## Farms -/

/-- `fold_farm_init` (lib.rs:5897): whether the treasury was registered. -/
def foldFarmInit (e : FarmInitEnvelope) (farmId : Word) (input : OutPoint) (launcherCIn : Bytes)
    (inputsC0Backed : Bool) (refundOutpoint : Word) (refundPath : List Word) : Fold Bool := do
  check (e.rewardTotal = 0) "farm_init fold: zero treasury"
  check (!isSentinel e.cChangeOrSentinel) "farm_init fold: non-sentinel change (farm-init must be exactly funded)"
  check (!swapVarKernelVerify C e.rewardAsset input launcherCIn e.cChangeOrSentinel e.rewardTotal e.kernelSig)
    "farm_init fold: treasury-funding kernel"
  let s ← get
  if (s.pools.get farmId).isSome ∨ expired e.refundExpiry s.height then
    onboardAmmRefundNote C e.rewardAsset e.rewardTotal e.refundBlinding e.refundDestXonly refundOutpoint refundPath
    pure false
  else
    insertPool farmId
      { assetA := e.rewardAsset, assetB := 0, reserveA := e.rewardTotal, reserveB := 0, totalShares := 0,
        c0Backed := inputsC0Backed, feeBps := 0, capabilityFlags := 0, protocolFeeBps := 0, kLast := 0,
        protocolFeeAccrued := 0 }
    pure true

/-- `fold_harvest` (lib.rs:5970): mint the reward note and debit the treasury. -/
def foldHarvest (farmId : Word) (rewardAmount : U 64) (rewardR rewardOutpoint : Word) (rewardPath : List Word)
    (destSpk : Bytes) : Fold Unit := do
  let s ← get
  let farm ← orThrow (s.pools.get farmId) "harvest fold: unknown farm"
  check (!farm.c0Backed) "harvest fold: farm not C0-backed"
  check (rewardAmount = 0 ∨ rewardAmount > farm.reserveA) "harvest fold: reward exceeds treasury"
  let cReward := C.pedersenCommitCompressed rewardAmount.val rewardR
  let auth ← orThrow (p2trXonly destSpk) "harvest fold: reward dest not P2TR"
  onboardNote C farm.assetA cReward auth rewardOutpoint rewardPath "harvest fold: reward leaf" "harvest fold: reward hash"
  setPool farmId { farm with reserveA := U.saturatingSub farm.reserveA rewardAmount }

/-- `fold_farm_init_rewards` (lib.rs:6000). -/
def foldFarmInitRewards (farmId : Word) (rate : U 64) (launcherPubkey : Bytes) (poolId : Word)
    (startHeight endHeight rewardTotal : U 64) : Fold Unit := do
  let s ← get
  check (s.farmRewards.get farmId).isSome "farm reward state already registered"
  check (endHeight = 0) "farm init: fixed-funded farm requires finite end_height"
  check (endHeight ≤ startHeight) "farm init: end_height <= start_height"
  let window := U.saturatingSub endHeight startHeight
  check (farmRateMax < rate.val) "farm init: rate exceeds cap"
  check (farmWindowMax < window.val) "farm init: window exceeds cap"
  let rateWindow ← orThrow (U.checkedMul rate window) "farm init: rate*window overflow"
  check (farmRateWindowMax ≤ rateWindow.val) "farm init: rate*window width cap"
  check (rateWindow > rewardTotal) "farm init: reward_per_block * window exceeds treasury"
  let farms ← orPanic (s.farmRewards.insert farmId
    { rate := rate, totalShares := 0, rps := 0, totalRewardDebt := 0, lastHeight := s.height,
      launcherPubkey := launcherPubkey, lpAsset := ammDeriveLpAssetId C poolId, startHeight := startHeight,
      endHeight := endHeight })
  modify fun s => { s with farmRewards := farms }

/-- `fold_farm_refund` (lib.rs:6039). -/
def foldFarmRefund (e : FarmRefundEnvelope) (refundOutpoint : Word) (refundPath : List Word) (destSpk : Bytes) :
    Fold Unit := do
  let s ← get
  let st ← orThrow (s.farmRewards.get e.farmId) "refund: unknown farm"
  check (st.launcherPubkey ≠ e.launcherPubkey) "refund: launcher pubkey not the one bound in farm_id"
  check (st.totalShares ≠ 0) "refund: farm has live stakers (total_shares != 0)"
  check (!C.bip340Verify e.launcherSig (farmRefundMsg C e destSpk) (xOnly e.launcherPubkey)) "refund: launcher signature"
  foldHarvest C e.farmId e.refundAmount e.refundR refundOutpoint refundPath destSpk

/-- `fold_lp_bond` (lib.rs:6082): the receipt leaf, or zero for a refunded bond. -/
def foldLpBond (farmId : Word) (shares : U 64) (owner nonce : Word) (receiptPath : List Word)
    (refundBlinding refundDestXonly refundOutpoint : Word) : Fold Word := do
  let s ← get
  let st ← orThrow (s.farmRewards.get farmId) "bond: unknown farm"
  check (shares = 0) "lp_bond: zero shares"
  match st.bond shares s.height with
  | none =>
    onboardAmmRefundNote C st.lpAsset shares refundBlinding refundDestXonly refundOutpoint receiptPath
    pure 0
  | some (st', entry) =>
    let leaf := farmReceiptLeaf C.toKeccak farmId st.lpAsset shares owner nonce
    if (s.farmEntries.get leaf).isSome then
      onboardAmmRefundNote C st.lpAsset shares refundBlinding refundDestXonly refundOutpoint receiptPath
      pure 0
    else
      expect (foldNoteAppend C.toKeccak leaf receiptPath)
      modify fun s => { s with farmEntries := s.farmEntries.set leaf entry }
      setFarm farmId st'
      pure leaf

/-- `receipt_spend_root` (lib.rs:6147). -/
def receiptSpendRoot (leaf : Word) (oldIndex : Nat) (oldPath : List Word) (w : SpentInsert) : Fold Word := do
  let s ← get
  check (!keccakMerkleVerify C.toKeccak leaf oldIndex oldPath s.poolRoot) "receipt not in note tree"
  orThrow (imtInsertTransition C.toKeccak s.spentRoot (farmReceiptNullifier C.toKeccak leaf) w.lowValue w.lowNext
    w.lowIndex w.lowPath s.spentCount w.newPath) "receipt nullifier insert witness invalid"

/-- `fold_lp_harvest` (lib.rs:6180). -/
def foldLpHarvest (e : LpHarvestEnvelope) (oldIndex : Nat) (oldPath : List Word) (destSpk : Bytes) : Fold Unit := do
  let s ← get
  let st ← orThrow (s.farmRewards.get e.farmId) "harvest: unknown farm"
  let leaf := farmReceiptLeaf C.toKeccak e.farmId st.lpAsset e.shares e.ownerCommit e.oldNonce
  let entryRps ← orThrow (s.farmEntries.get leaf) "harvest: no live entry stamp for receipt"
  let (st, newStamp) ← orThrow (verifyFarmHarvest st s.height e.shares entryRps e.rewardAmount)
    "harvest: reward exceeds accrual"
  check (!C.bip340Verify e.harvesterSig (lpHarvestOwnerMsg C e leaf destSpk) e.ownerCommit) "harvest: owner signature"
  check (!keccakMerkleVerify C.toKeccak leaf oldIndex oldPath s.poolRoot) "harvest: receipt not in note tree"
  modify fun s => { s with farmEntries := s.farmEntries.set leaf newStamp }
  setFarm e.farmId st

/-- `fold_lp_unbond` (lib.rs:6219). -/
def foldLpUnbond (e : LpUnbondEnvelope) (oldIndex : Nat) (oldPath : List Word) (w : SpentInsert)
    (lpReturnOutpoint : Word) (lpReturnPath : List Word) (destSpk : Bytes) : Fold Unit := do
  let s ← get
  let st ← orThrow (s.farmRewards.get e.farmId) "unbond: unknown farm"
  let leaf := farmReceiptLeaf C.toKeccak e.farmId st.lpAsset e.shares e.ownerCommit e.nonce
  let entryRps ← orThrow (s.farmEntries.get leaf) "unbond: no live entry stamp for receipt"
  check (!C.bip340Verify e.unbonderSig (lpUnbondOwnerMsg C e leaf destSpk) e.ownerCommit) "unbond: owner signature"
  let newSpentRoot ← receiptSpendRoot C leaf oldIndex oldPath w
  check (e.shares = 0 ∨ e.shares > st.totalShares ∨ 2 ^ 128 ≤ e.shares.val * entryRps.val ∨
    st.totalRewardDebt.val < e.shares.val * entryRps.val) "unbond: bad shares"
  let cRet := C.pedersenCommitCompressed e.shares.val e.lpReturnR
  let auth ← orThrow (p2trXonly destSpk) "unbond: lp-return dest not P2TR"
  onboardNote C st.lpAsset cRet auth lpReturnOutpoint lpReturnPath "unbond: lp-return leaf" "unbond: lp-return hash"
  let st' ← orThrow (st.unbond e.shares entryRps s.height) "unbond: share/debt accounting underflow"
  modify fun s => { s with
    farmEntries := s.farmEntries.erase leaf, spentRoot := newSpentRoot, spentCount := s.spentCount + 1 }
  setFarm e.farmId st'

/-! ## Cross-lane folds -/

/-- `eth_crossout_leaf` (eth_reflection.rs:82) of a cross-out to Bitcoin. -/
def ethCrossoutLeaf (K : Keccak) (claimId destCommitment asset : Word) : Word :=
  K.kn [claimId.bytes, beBytes 2 1, destCommitment.bytes, asset.bytes]

/-- What the guest reads for a cross-out mint (reflect.rs:1590-1598). -/
structure CrossoutWitness where
  isMember : Bool
  next : Word
  lowValue : Word
  index : Nat
  path : List Word
  notePath : List Word
  consumed : SpentInsert

/-- `eth_crossout_imt` (eth_reflection.rs:96). -/
def ethCrossoutImt (K : Keccak) (leaf setRoot : Word) (w : CrossoutWitness) : Option Bool :=
  if w.isMember then
    if imtMembership K setRoot leaf w.next w.index w.path then some true else none
  else if imtNonMembership K setRoot leaf w.lowValue w.next w.index w.path then some false
  else none

/-- The mint of a member cross-out (lib.rs:6498-6530): a claim consumed before is a proved no-op. -/
def mintCrossout (asset claimId cx cy outpoint destAuthKey : Word) (w : CrossoutWitness) : Fold Unit := do
  let s ← get
  if w.consumed.lowValue = claimId then
    assert (imtMembership C.toKeccak s.consumedCrossoutRoot claimId w.consumed.lowNext w.consumed.lowIndex
      w.consumed.lowPath)
  else
    let root ← orPanic (imtInsertTransition C.toKeccak s.consumedCrossoutRoot claimId w.consumed.lowValue
      w.consumed.lowNext w.consumed.lowIndex w.consumed.lowPath s.consumedCrossoutCount w.consumed.newPath)
    expect (foldOutput C.toKeccak (btcNoteLeaf C.toKeccak asset cx cy destAuthKey) w.notePath outpoint
      (commitmentHash C.toKeccak cx cy) asset destAuthKey)
    modify fun s => { s with
      consumedCrossoutRoot := root, consumedCrossoutCount := s.consumedCrossoutCount + 1,
      foldedCrossoutCount := s.foldedCrossoutCount + 1 }

/-- `fold_crossout` (lib.rs:6427). -/
def foldCrossout (asset claimId cx cy crossoutSetRoot outpoint destAuthKey : Word) (w : CrossoutWitness) : Fold Unit := do
  check (C.fromAffineXy cx cy).isNone "crossout fold: commitment not a curve point"
  check (destAuthKey = 0) "crossout fold: zero destination key (non-P2TR mint output)"
  let destCommitment := btcNoteLeaf C.toKeccak asset cx cy destAuthKey
  check (crossoutSetRoot = 0) "crossout fold: forward batch (no eth crossout set attested)"
  let isReal ← orPanic (ethCrossoutImt C.toKeccak (ethCrossoutLeaf C.toKeccak claimId destCommitment asset)
    crossoutSetRoot w)
  if !isReal then pure () else mintCrossout C asset claimId cx cy outpoint destAuthKey w

/-- What the guest reads for an Ethereum message (reflect.rs:1657-1659). -/
structure EthMsgWitness where
  index : Nat
  path : List Word
  honored : SpentInsert

/-- `fold_eth_message` (lib.rs:6359). -/
def foldEthMessage (msgId record msgSetRoot : Word) (w : EthMsgWitness) : Fold Unit := do
  check (msgSetRoot = 0) ""
  check (!keccakMerkleVerify C.toKeccak (C.kn [msgId.bytes, record.bytes]) w.index w.path msgSetRoot) ""
  let s ← get
  if w.honored.lowValue = msgId then
    assert (imtMembership C.toKeccak s.honoredMsgRoot msgId w.honored.lowNext w.honored.lowIndex w.honored.lowPath)
  else
    let root ← orPanic (imtInsertTransition C.toKeccak s.honoredMsgRoot msgId w.honored.lowValue w.honored.lowNext
      w.honored.lowIndex w.honored.lowPath s.honoredMsgCount w.honored.newPath)
    modify fun s => { s with honoredMsgRoot := root, honoredMsgCount := s.honoredMsgCount + 1 }

/-! ## cBTC locks -/

/-- `CBTC_ZK_ASSET_ID` (lib.rs:441). -/
def cbtcZkAssetId : Word :=
  ⟨[0x62, 0xa2, 0x0d, 0x98, 0xfc, 0x1c, 0xd2, 0x02, 0x89, 0x62, 0x1d, 0x13, 0x15, 0x29, 0x4c, 0xb8,
    0x77, 0x2f, 0x93, 0x4d, 0x82, 0x2e, 0x40, 0x4b, 0x71, 0xe1, 0xf4, 0x71, 0xcf, 0x06, 0x79, 0xc8], rfl⟩

/-- `CbtcLockFold` (lib.rs:4311): a lock tracked by this batch, as the public values surface it. -/
structure CbtcLockFold where
  outpoint : Word
  vBtc : U 64
  commitmentHash : Word

/-- `fold_cbtc_lock` (lib.rs:6538). -/
def foldCbtcLock (asset cx cy : Word) (tx : Tx) (lockVout : U 32) : Fold CbtcLockFold := do
  check (asset ≠ cbtcZkAssetId) "cbtc lock: not the cBTC.zk asset"
  check (C.fromAffineXy cx cy).isNone "cbtc lock: commitment not a curve point"
  let (vBtc, _) ← orThrow tx.outputs[lockVout.val]? "cbtc lock: no such output"
  check (vBtc = 0) "cbtc lock: zero value"
  check (lockVout = 0) "cbtc lock: lock vout must not be 0"
  let lockOutpoint := outpointKey C.toKeccak (tx.txid, lockVout)
  let s ← get
  check (s.cbtcLocks.get lockOutpoint).isSome "cbtc lock: outpoint already tracked"
  modify fun s => { s with
    cbtcLocks := s.cbtcLocks.set lockOutpoint vBtc, cbtcBackingSats := U.saturatingAdd s.cbtcBackingSats vBtc }
  pure ⟨lockOutpoint, vBtc, commitmentHash C.toKeccak cx cy⟩

/-- `fold_cbtc_lock_spends` (lib.rs:6594): the tracked outpoints among the inputs, in input order. -/
def foldCbtcLockSpends : List OutPoint → Fold (List Word)
  | [] => pure []
  | op :: inputs => do
    let key := outpointKey C.toKeccak op
    let s ← get
    match s.cbtcLocks.get key with
    | some v =>
      modify fun s => { s with
        cbtcBackingSats := U.saturatingSub s.cbtcBackingSats v, cbtcLocks := s.cbtcLocks.erase key }
      let spent ← foldCbtcLockSpends inputs
      pure (key :: spent)
    | none => foldCbtcLockSpends inputs

/-- `fold_cbtc_redeem` (lib.rs:6626). -/
def foldCbtcRedeem (lock : OutPoint) (vBtc : U 64) (txInputs inputOutpoints : List OutPoint)
    (inputCommitments : List Point) (kernelSig : Bytes) : Fold Word := do
  check (vBtc = 0) "cbtc redeem: zero value"
  check (lock ∉ txInputs) "cbtc redeem: lock not unlocked in this tx"
  let key := outpointKey C.toKeccak lock
  let s ← get
  let v ← orThrow (s.cbtcLocks.get key) "cbtc redeem: lock not tracked"
  check (v ≠ vBtc) "cbtc redeem: lock value mismatch"
  check (!cxferKernelVerify C cbtcZkAssetId inputOutpoints inputCommitments [] vBtc kernelSig)
    "cbtc redeem: burn conservation"
  modify fun s => { s with
    cbtcBackingSats := U.saturatingSub s.cbtcBackingSats vBtc, cbtcLocks := s.cbtcLocks.erase key }
  pure key

/-! ## Spends -/

/-- `DetectedSpend` (lib.rs:3468). -/
structure DetectedSpend where
  nu : Word
  prev : OutPoint
  cx : Word
  cy : Word
  note : LiveNote

/-- The spent note's asset. -/
def DetectedSpend.asset (d : DetectedSpend) : Word := d.note.asset

/-- `scan_tx_spends` (lib.rs:3505): one opening per input that is live, in input order. An opening that does
not bind is a panic of the caller. -/
def scanTxSpends (chainBinding : Word) : List OutPoint → List (Word × Word) → Fold (List DetectedSpend)
  | [], _ => pure []
  | op :: ins, openings => do
    let key := outpointKey C.toKeccak op
    let s ← get
    match s.live.get key, openings with
    | none, _ => scanTxSpends chainBinding ins openings
    | some _, [] => panic
    | some n, (cx, cy) :: openings =>
      let nu ← orPanic (if n.bound then bindSpentNoteBound C.toKeccak n.commitmentHash n.asset cx cy n.authKey chainBinding
        else bindSpentNote C.toKeccak n.commitmentHash n.asset cx cy n.authKey)
      liveRemove key
      let spends ← scanTxSpends chainBinding ins openings
      pure (⟨nu, op, cx, cy, n⟩ :: spends)

end

end Tacit
