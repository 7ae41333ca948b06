import Tacit.Pool.PublicAmm
/-!
# Settling a batch (contracts/src/ConfidentialPool.sol :1768-:2355)

`settle` checks a verified batch against the storage and applies its effects, one array after another. The
function is long; here each array's loop is a definition of its own, in the source's order.
-/
namespace Tacit

open Prog

namespace ConfidentialPool

/-! ## The batch -/

structure Withdrawal where
  assetId : Word
  recipient : Address
  value : Nat

structure FeePayment where
  assetId : Word
  value : Nat

structure CrossOut where
  destChain : Nat
  destCommitment : Word
  nullifier : Word
  assetId : Word
  claimId : Word

/-- `SwapSettlement` (:599); nothing on chain reads the cuts. -/
structure SwapSettlement where
  poolId : Word
  reserveAPre : Nat
  reserveBPre : Nat
  reserveAPost : Nat
  reserveBPost : Nat

structure LpSettlement where
  poolId : Word
  reserveAPre : Nat
  reserveBPre : Nat
  sharesPre : Nat
  reserveAPost : Nat
  reserveBPost : Nat
  sharesPost : Nat

structure CbtcMint where
  outpoint : Word
  vBtc : Nat
  commitment : Word

/-- `PublicValues` (:679), the fields the contract reads. -/
structure PublicValues where
  version : Nat
  chainBinding : Word
  spendRoot : Word
  nullifiers : List Word
  leaves : List Word
  depositsConsumed : List Word
  withdrawals : List Withdrawal
  fees : List FeePayment
  bitcoinBurnsConsumed : List Word
  crossOuts : List CrossOut
  bitcoinRootsUsed : List Word
  bitcoinSpentRoot : Word
  bitcoinBurnRoot : Word
  swaps : List SwapSettlement
  liquidity : List LpSettlement
  deadline : Nat
  lockSetRoot : Word
  lockLeaves : List Word
  lockNullifiers : List Word
  refundNotBefore : Nat
  cdpPositionRoot : Word
  cdpMints : List CdpMint
  cdpCloses : List CdpClose
  cdpLiquidations : List CdpClose
  cdpTopups : List CdpTopup
  cbtcMints : List CbtcMint
  memoRoot : Word
  bitcoinConsumedSources : List Word
  bitcoinBurnIdsConsumed : List Word
  harvestActionIds : List Word

/-- A batch of version 1 that does nothing. -/
def PublicValues.none (chainBinding : Word) : PublicValues where
  version := 1
  chainBinding := chainBinding
  spendRoot := 0
  nullifiers := []
  leaves := []
  depositsConsumed := []
  withdrawals := []
  fees := []
  bitcoinBurnsConsumed := []
  crossOuts := []
  bitcoinRootsUsed := []
  bitcoinSpentRoot := 0
  bitcoinBurnRoot := 0
  swaps := []
  liquidity := []
  deadline := 0
  lockSetRoot := 0
  lockLeaves := []
  lockNullifiers := []
  refundNotBefore := 0
  cdpPositionRoot := 0
  cdpMints := []
  cdpCloses := []
  cdpLiquidations := []
  cdpTopups := []
  cbtcMints := []
  memoRoot := 0
  bitcoinConsumedSources := []
  bitcoinBurnIdsConsumed := []
  harvestActionIds := []

variable (D : Deployment) (env : Env)

/-! ## Trees -/

/-- `_insertTreeLeaf` (:2627): the new root; the tree's `filledSubtrees` are updated. -/
def insertTreeLeaf (K : Keccak) (leaf : Word) : Prog Tree PoolError Unit := do
  let t ← get
  check (2 ^ treeLevels ≤ t.nextLeafIndex) .merkleTreeFull
  let climbed := Merkle.climb K.k2 (Merkle.zeros K.k2 0) treeLevels 0 t.nextLeafIndex leaf t.filledSubtrees
  modify fun t => { t with
    currentRoot := climbed.1, filledSubtrees := climbed.2, nextLeafIndex := t.nextLeafIndex + 1 }

/-- `_appendLeaves` (:2573); it is only called on a non-empty list, where the stored root is the last one. -/
def appendLeaves (K : Keccak) (leaves : List Word) : Prog Tree PoolError Unit := forEach leaves (insertTreeLeaf K)

/-- `everKnownRoot[root] = true` for the tree's own root. -/
def markRoot : Prog Tree PoolError Unit :=
  modify fun t => { t with everKnownRoot := Function.update t.everKnownRoot t.currentRoot true }

/-- The batched insert of `settle` (:1968, :2155). -/
def insertLeaves (K : Keccak) (leaves : List Word) : Prog Tree PoolError Unit :=
  onlyIf (leaves ≠ []) do
    appendLeaves K leaves
    markRoot

/-! ## Checks before any write -/

/-- Whose note tree `spendRoot` names: the Bitcoin one (`btcHomed`, :1789-:1798)? -/
def homeOf (spendRoot : Word) (s : Storage) : Except PoolError Bool :=
  if spendRoot = 0 then .ok false
  else if s.notes.everKnownRoot spendRoot then .ok false
  else if s.reflection.knownBitcoinRoot spendRoot then .ok true
  else .error .unknownRoot

/-- `_requireLocalExitOnly` (:2339). -/
def requireLocalExitOnly (pv : PublicValues) (btcHomed : Bool) (s : Storage) : Except PoolError Unit := do
  refuse (btcHomed = true ∨ pv.swaps ≠ [] ∨ pv.cbtcMints.length ≠ 0 ∨ (pv.crossOuts ≠ [] ∧ s.handoffDigest = 0))
    .poolRetired
  refuse (∃ l ∈ pv.liquidity, l.sharesPre ≤ l.sharesPost) .poolRetired
  refuse (∃ m ∈ pv.cdpMints, m.positionLeaf ≠ wordOfNat 1 ∨ m.debtValue = 0) .poolRetired

/-- :1849. -/
def retirementGate (pv : PublicValues) (btcHomed : Bool) (s : Storage) : Except PoolError Unit :=
  if s.successor ≠ 0 then requireLocalExitOnly pv btcHomed s else .ok ()

/-- The checks up to the retirement gate (:1769-:1849): is the batch Bitcoin-homed? -/
def settleChecks (pv : PublicValues) (s : Storage) : Except PoolError Bool := do
  refuse (env.verified = false) .external
  refuse (pv.version ≠ 1) .badVersion
  refuse (pv.chainBinding ≠ D.chainBinding) .chainMismatch
  refuse (pv.deadline ≠ 0 ∧ pv.deadline < env.timestamp) .expired
  refuse (pv.refundNotBefore ≠ 0 ∧ env.timestamp ≤ pv.refundNotBefore) .refundTooEarly
  let btcHomed ← homeOf pv.spendRoot s
  refuse (if pv.bitcoinSpentRoot = 0 then btcHomed = true
    else pv.bitcoinSpentRoot ≠ s.reflection.knownBitcoinSpentRoot) .staleBitcoinSpentRoot
  retirementGate pv btcHomed s
  return btcHomed

/-- The checks on a Bitcoin-homed batch (:1857-:1885). -/
def btcHomedChecks (pv : PublicValues) (s : Storage) : Except PoolError Unit := do
  refuse (pv.depositsConsumed ≠ [] ∨ pv.lockLeaves ≠ [] ∨ pv.lockNullifiers ≠ [] ∨ pv.bitcoinBurnsConsumed ≠ [])
    .btcHomedValueExitMustBridge
  let exits := pv.withdrawals.length + pv.fees.length + pv.leaves.length + pv.swaps.length + pv.liquidity.length +
    pv.cdpMints.length + pv.cdpCloses.length + pv.cdpLiquidations.length + pv.cdpTopups.length + pv.cbtcMints.length +
    pv.crossOuts.length
  refuse (exits ≠ 0 ∧ pv.nullifiers = []) .btcHomedValueExitMustBridge
  refuse (∃ w ∈ pv.withdrawals, (rAsset s w.assetId).poolMinted = false) .btcHomedValueExitMustBridge
  refuse (∃ f ∈ pv.fees, (rAsset s f.assetId).poolMinted = false) .btcHomedValueExitMustBridge

/-- One entry of a log: its key in the next slot, its value under the key. -/
def Log.push (log : Log) (e : Word × Word) : Log where
  entry := Function.update log.entry e.1 e.2
  logAt := Function.update log.logAt log.count e.1
  count := log.count + 1

/-- The entries of the consumption log (:1903-:1905): each nullifier with the hash of its root and source. -/
def PublicValues.consumption (K : Keccak) (pv : PublicValues) : List (Word × Word) :=
  (pv.nullifiers.zip pv.bitcoinConsumedSources).map fun p => (p.1, K.k2 pv.spendRoot p.2)

/-- The consumption of Bitcoin notes (:1892-:1912). -/
def consumeBitcoin (pv : PublicValues) : Prog Storage PoolError Unit :=
  onlyIf (pv.nullifiers ≠ []) do
    check (pv.bitcoinConsumedSources.length ≠ pv.nullifiers.length) .btcHomedValueExitMustBridge
    let s ← get
    let _ ← orThrow (uint256 (s.consumed.count + pv.nullifiers.length)) .arithmetic
    modify fun s => { s with consumed := (pv.consumption D.keccak).foldl Log.push s.consumed }

/-- `memoRoot`'s running hash (:1939-:1942). -/
def memoChain (K : Keccak) (memos : List Bytes) : Word := memos.foldl (fun mr m => K.k2 mr (K.hash m)) 0

/-- The root and memo checks (:1919-:1944). -/
def rootChecks (pv : PublicValues) (memos : List Bytes) (s : Storage) : Except PoolError Unit := do
  refuse (if pv.lockSetRoot = 0 then pv.lockNullifiers ≠ [] else s.lockTree.everKnownRoot pv.lockSetRoot = false)
    .unknownLockRoot
  refuse (if pv.bitcoinBurnRoot = 0 then pv.bitcoinBurnsConsumed ≠ []
    else pv.bitcoinBurnRoot ≠ s.reflection.knownBitcoinBurnRoot) .staleBitcoinBurnRoot
  refuse (memos.length ≠ pv.leaves.length + pv.lockLeaves.length) .memoLeafMismatch
  refuse (memoChain D.keccak memos ≠ pv.memoRoot) .memoLeafMismatch

/-! ## Spend-once marks -/

/-- :1950-:1954. -/
def spendNullifier (n : Word) : Prog Storage PoolError Unit :=
  zoom Storage.nullifierSpent (fun m s => { s with nullifierSpent := m }) (markOnce .nullifierAlreadySpent n)

/-- :1963-:1967. -/
def spendLock (l : Word) : Prog Storage PoolError Unit :=
  zoom Storage.lockSpent (fun m s => { s with lockSpent := m }) (markOnce .lockAlreadySpent l)

/-- `_spendCdpPosition` (:2367). -/
def spendCdpPosition (positionNullifier : Word) : Prog Storage PoolError Unit :=
  zoom Storage.cdpPositionSpent (fun m s => { s with cdpPositionSpent := m })
    (markOnce .cdpPositionAlreadySpent positionNullifier)

/-- :2024-:2025. -/
def consumeHarvest (harvestId : Word) : Prog Storage PoolError Unit :=
  zoom Storage.harvestConsumed (fun m s => { s with harvestConsumed := m }) (markOnce .harvestReplayed harvestId)

/-- :2145-:2146. -/
def mintBurn (burnId : Word) : Prog Storage PoolError Unit :=
  zoom Storage.bridgeMinted (fun m s => { s with bridgeMinted := m }) (markOnce .burnAlreadyMinted burnId)

/-- :2115-:2119. -/
def consumeDeposit (id : Word) : Prog Storage PoolError Unit := do
  let s ← get
  check (s.depositStatus id ≠ 1) .depositNotPending
  modify fun s => { s with depositStatus := Function.update s.depositStatus id 2 }

/-! ## Positions -/

/-- `_insertCdpPositionLeaf` (:2610). -/
def insertCdpPositionLeaf (leaf : Word) : Prog Storage PoolError Unit := do
  zoom Storage.cdpPositionLeafInserted (fun m s => { s with cdpPositionLeafInserted := m })
    (markOnce .cdpPositionAlreadySpent leaf)
  zoom Storage.cdpTree (fun t s => { s with cdpTree := t }) (insertTreeLeaf D.keccak leaf)

/-- `everKnownCdpRoot[cdpRoot] = true`. -/
def markCdpRoot : Prog Storage PoolError Unit := zoom Storage.cdpTree (fun t s => { s with cdpTree := t }) markRoot

/-- `_cdpDebtAsset` (:2596). -/
def cdpDebtAsset (controller : Address) : Word := D.keccak.kn [ascii "tacit-cdp-debt-v1", beBytes 20 controller]

/-- `_ckController` (:1434). -/
def ckController (controller : Address) : Prog Storage PoolError Unit :=
  check (env.hasCode controller = false) .badCdpController

/-- The position-root check (:1988-:1998). -/
def cdpRootCheck (pv : PublicValues) (s : Storage) : Except PoolError Unit :=
  refuse (if pv.cdpLiquidations ≠ [] ∨ pv.cdpTopups ≠ [] ∨ ∃ c ∈ pv.cdpCloses, c.debtValue ≠ 0 then
      pv.cdpPositionRoot = 0 ∨ s.cdpTree.everKnownRoot pv.cdpPositionRoot = false
    else pv.cdpPositionRoot ≠ 0 ∧ s.cdpTree.everKnownRoot pv.cdpPositionRoot = false) .unknownCdpRoot

/-- A farm harvest (:2020-:2033): take the next action id, once, and the reward from the treasury. -/
def harvest (m : CdpMint) (ids : List Word) : Prog Storage PoolError (List Word) := do
  let harvestId ← orThrow ids.head? .arithmetic
  consumeHarvest harvestId
  let rewardAsset := (m.legs.head?.map CdpLeg.asset).getD 0
  onlyIf (rewardAsset ≠ m.debtAsset) do
    let s ← get
    check (s.farmRewardAsset m.controller ≠ rewardAsset ∨ s.farmTreasury m.controller < m.debtValue) .insufficientEscrow
    modify fun s => { s with
      farmTreasury := Function.update s.farmTreasury m.controller (s.farmTreasury m.controller - m.debtValue) }
  return ids.tail

def takeHarvest (m : CdpMint) (ids : List Word) : Prog Storage PoolError (List Word) :=
  if m.positionLeaf = wordOfNat 1 ∧ m.debtValue ≠ 0 then harvest m ids else pure ids

/-- One `CdpMint` (:2002-:2034); `ids` are the harvest ids not yet taken. -/
def cdpMint (m : CdpMint) (ids : List Word) : Prog Storage PoolError (List Word) := do
  ckController env m.controller
  check (m.debtAsset ≠ cdpDebtAsset D m.controller) .badCdpController
  onlyIf (wordOfNat 2 < m.positionLeaf) (insertCdpPositionLeaf D m.positionLeaf)
  let rest ← takeHarvest m ids
  callOut D env (.onCdpMint m)
  return rest

/-- The loop over `cdpMints` (:2001-:2035). -/
def cdpMints : List CdpMint → List Word → Prog Storage PoolError (List Word)
  | [], ids => pure ids
  | m :: ms, ids => do
    let rest ← cdpMint D env m ids
    cdpMints ms rest

/-- :2041-:2050. -/
def cdpTopup (t : CdpTopup) : Prog Storage PoolError Unit := do
  ckController env t.controller
  check (t.newPositionLeaf ≤ wordOfNat 2) .badCdpController
  spendCdpPosition t.oldPositionNullifier
  insertCdpPositionLeaf D t.newPositionLeaf
  callOut D env (.onCdpTopup t)

/-- :2055-:2058. -/
def cdpClose (c : CdpClose) : Prog Storage PoolError Unit := do
  ckController env c.controller
  spendCdpPosition c.positionNullifier
  callOut D env (.onCdpClose c)

/-- :2061-:2068. -/
def cdpLiquidate (q : CdpClose) : Prog Storage PoolError Unit := do
  ckController env q.controller
  spendCdpPosition q.positionNullifier
  callOut D env (.onCdpLiquidate q)

/-- The position section (:1988-:2069). -/
def cdpSection (pv : PublicValues) : Prog Storage PoolError Unit := do
  let s ← get
  ofExcept (cdpRootCheck pv s)
  let left ← cdpMints D env pv.cdpMints pv.harvestActionIds
  check (left ≠ []) .harvestReplayed
  onlyIf (pv.cdpMints.length ≠ 0) markCdpRoot
  forEach pv.cdpTopups (cdpTopup D env)
  onlyIf (pv.cdpTopups.length ≠ 0) markCdpRoot
  forEach pv.cdpCloses (cdpClose D env)
  forEach pv.cdpLiquidations (cdpLiquidate D env)

/-! ## cBTC mints -/

/-- :2081-:2093. -/
def mintCbtc (cm : CbtcMint) : Prog Storage PoolError Unit := do
  let s ← get
  let locks := s.reflection.locks
  check (cm.vBtc = 0 ∨ locks.vBtc cm.outpoint ≠ cm.vBtc ∨ locks.commitment cm.outpoint ≠ cm.commitment) .cbtcLockMismatch
  check (locks.spent cm.outpoint = true ∨ locks.redeemed cm.outpoint = true ∨ s.cbtcMinted cm.outpoint = true)
    .cbtcLockMismatch
  check (D.collateralEngine = 0) .cbtcLockMismatch
  let sufficient ← orThrow (env.escrowSufficient cm.outpoint cm.vBtc) .external
  check (sufficient = false) .cbtcLockMismatch
  modify fun s => { s with cbtcMinted := Function.update s.cbtcMinted cm.outpoint true }

/-- :2079-:2094. -/
def cbtcSection (pv : PublicValues) : Prog Storage PoolError Unit := do
  let s ← get
  check (pv.cbtcMints.length ≠ 0 ∧ s.reflection.overflow.pending ≠ 0) .cbtcOverflowPending
  forEach pv.cbtcMints (mintCbtc D env)

/-! ## Bridge mints, leaves and payouts -/

/-- :2106-:2113. -/
def countNullifiers (pv : PublicValues) (btcHomed : Bool) : Prog Storage PoolError Unit :=
  onlyIf (btcHomed = false) do
    let s ← get
    let added := pv.nullifiers.countP fun n => n ∉ pv.bitcoinBurnsConsumed
    let total ← orThrow (uint256 (s.evmNullifiersSpent + added)) .arithmetic
    modify fun s => { s with evmNullifiersSpent := total }

/-- The loop over the burns (:2134-:2147); `seen` are the burn nullifiers before this one. -/
def mintBurns (nullifiers : List Word) : List Word → List (Word × Word) → Prog Storage PoolError Unit
  | _, [] => pure ()
  | seen, (burnNullifier, burnId) :: rest => do
    check (burnNullifier ∉ nullifiers) .bridgeBurnNotNullified
    check (burnNullifier ∈ seen) .duplicateBridgeNullifier
    mintBurn burnId
    mintBurns nullifiers (seen ++ [burnNullifier]) rest

/-- The bridge mints (:2132-:2153). -/
def bridgeSection (pv : PublicValues) : Prog Storage PoolError Unit := do
  check (pv.bitcoinRootsUsed.length ≠ pv.bitcoinBurnsConsumed.length) .bridgeMintRootMismatch
  check (pv.bitcoinBurnIdsConsumed.length ≠ pv.bitcoinBurnsConsumed.length) .bridgeMintRootMismatch
  mintBurns pv.nullifiers [] (pv.bitcoinBurnsConsumed.zip pv.bitcoinBurnIdsConsumed)
  let s ← get
  check (∃ r ∈ pv.bitcoinRootsUsed, s.reflection.knownBitcoinRoot r = false) .unknownBitcoinRoot

/-- The note leaves and the reserve floor (:2155-:2173). -/
def leafSection (pv : PublicValues) : Prog Storage PoolError Unit := do
  zoom Storage.notes (fun t s => { s with notes := t }) (insertLeaves D.keccak pv.leaves)
  let s ← get
  check (s.notes.nextLeafIndex < s.evmNullifiersSpent) .reserveFloorBreach

/-- Withdrawals and fees (:2175-:2182). -/
def payoutSection (pv : PublicValues) : Prog Storage PoolError Unit := do
  forEach pv.withdrawals fun w => payoutCk D env w.assetId w.recipient w.value
  forEach pv.fees fun f => payoutCk D env f.assetId env.sender f.value

/-- `keccak256(abi.encodePacked(destChain, destCommitment, nullifier, assetId))` (:2189). -/
def CrossOut.claim (K : Keccak) (c : CrossOut) : Word :=
  K.kn [beBytes 2 c.destChain, c.destCommitment.bytes, c.nullifier.bytes, c.assetId.bytes]

/-- The loop over the cross-outs (:2187-:2223); `seen` are the nullifiers of those before this one. A claim id
is one of fewer than `2^256` words, so the unchecked increment of the log's count cannot wrap. -/
def recordCrossOuts (pv : PublicValues) : List Word → List CrossOut → Prog Storage PoolError Unit
  | _, [] => pure ()
  | seen, c :: rest => do
    check (c.claim D.keccak ≠ c.claimId) .crossOutClaimMismatch
    check (c.destChain ≠ 1) .crossOutUnsupportedDest
    check (c.nullifier ∉ pv.nullifiers) .crossOutNullifierNotSpent
    check (c.nullifier ∈ seen) .duplicateBridgeNullifier
    check (c.nullifier ∈ pv.bitcoinBurnsConsumed) .duplicateBridgeNullifier
    modify fun s => { s with crossOuts := s.crossOuts.push (c.claimId, c.destCommitment) }
    recordCrossOuts pv (seen ++ [c.nullifier]) rest

/-! ## Reserves -/

/-- One shielded swap on its pool (:2232-:2250). -/
def settleSwap (p : Pool) (w : SwapSettlement) : Except PoolError Pool := do
  refuse (p.init = false) .poolNotInit
  refuse (p.reserveA ≠ w.reserveAPre ∨ p.reserveB ≠ w.reserveBPre) .poolReserveMismatch
  refuse (w.reserveAPost = 0 ∨ w.reserveBPost = 0) .reserveFloorBreach
  refuse (2 ^ 64 ≤ w.reserveAPost ∨ 2 ^ 64 ≤ w.reserveBPost) .valueOutOfRange
  let kPost ← need (uint256 (w.reserveAPost * w.reserveBPost)) .arithmetic
  let kPre ← need (uint256 (w.reserveAPre * w.reserveBPre)) .arithmetic
  refuse (kPost < kPre) .constantProductDecreased
  return { p with reserveA := w.reserveAPost, reserveB := w.reserveBPost }

/-- `_ckProp` (:2506). -/
def ckProp (n1 d1 n2 d2 : Nat) : Except PoolError Unit := do
  let l ← need (uint256 (n1 * d1)) .arithmetic
  let r ← need (uint256 (n2 * d2)) .arithmetic
  refuse (r < l) .poolReserveMismatch

/-- A shielded removal (:2268-:2280): the deltas of the batch against the live reserves. -/
def settleRemove (p : Pool) (l : LpSettlement) : Except PoolError Pool := do
  let dS ← need (uintSub l.sharesPre l.sharesPost) .arithmetic
  let dA ← need (uintSub l.reserveAPre l.reserveAPost) .arithmetic
  let dB ← need (uintSub l.reserveBPre l.reserveBPost) .arithmetic
  ckProp dA p.totalShares p.reserveA dS
  ckProp dB p.totalShares p.reserveB dS
  let rA ← need (uintSub p.reserveA dA) .arithmetic
  let rB ← need (uintSub p.reserveB dB) .arithmetic
  let sP ← need (uintSub p.totalShares dS) .arithmetic
  refuse (rA = 0 ∨ rB = 0 ∨ sP < minimumLiquidity) .reserveFloorBreach
  return { p with reserveA := rA, reserveB := rB, totalShares := sP }

/-- The founding check of a shielded add (:2298-:2300) and the pro-rata check of a later one (:2305-:2312). -/
def addChecks (l : LpSettlement) : Except PoolError Unit :=
  if l.sharesPre = 0 then do
    let ss ← need (uint256 (l.sharesPost * l.sharesPost)) .arithmetic
    let rr ← need (uint256 (l.reserveAPost * l.reserveBPost)) .arithmetic
    refuse (rr < ss) .insufficientLiquidity
  else do
    let mS ← need (uintSub l.sharesPost l.sharesPre) .arithmetic
    refuse (mS = 0) .insufficientLiquidity
    let dA ← need (uintSub l.reserveAPost l.reserveAPre) .arithmetic
    ckProp mS l.reserveAPre dA l.sharesPre
    let dB ← need (uintSub l.reserveBPost l.reserveBPre) .arithmetic
    ckProp mS l.reserveBPre dB l.sharesPre

/-- A shielded add (:2283-:2315). -/
def settleAdd (p : Pool) (l : LpSettlement) : Except PoolError Pool := do
  refuse (p.reserveA ≠ l.reserveAPre ∨ p.reserveB ≠ l.reserveBPre ∨ p.totalShares ≠ l.sharesPre) .poolReserveMismatch
  refuse (l.reserveAPost = 0 ∨ l.reserveBPost = 0 ∨ l.sharesPost < minimumLiquidity) .reserveFloorBreach
  refuse (l.sharesPre = 0 ∧ l.sharesPost ≤ minimumLiquidity) .insufficientLiquidity
  refuse (2 ^ 64 ≤ l.reserveAPost ∨ 2 ^ 64 ≤ l.reserveBPost ∨ 2 ^ 64 ≤ l.sharesPost) .valueOutOfRange
  addChecks l
  return { p with reserveA := l.reserveAPost, reserveB := l.reserveBPost, totalShares := l.sharesPost }

/-- One shielded liquidity change (:2259-:2316). -/
def settleLiquidity (p : Pool) (l : LpSettlement) : Except PoolError Pool := do
  refuse (p.init = false) .poolNotInit
  if l.sharesPost < l.sharesPre then settleRemove p l else settleAdd p l

/-- Apply a settlement to its pool. -/
def updatePool (id : Word) (f : Pool → Except PoolError Pool) : Prog Storage PoolError Unit := do
  let s ← get
  let p ← ofExcept (f (s.pools id))
  setPool id p

/-! ## The batch as a whole -/

/-- The marks and trees before the positions (:1950-:1980). -/
def spendSection (pv : PublicValues) : Prog Storage PoolError Unit := do
  forEach pv.nullifiers spendNullifier
  forEach pv.lockNullifiers spendLock
  zoom Storage.lockTree (fun t s => { s with lockTree := t }) (insertLeaves D.keccak pv.lockLeaves)

/-- `_settle` (:1768). -/
def settle (pv : PublicValues) (memos : List Bytes) : Prog Storage PoolError Unit := do
  let s ← get
  let btcHomed ← ofExcept (settleChecks D env pv s)
  onlyIf (btcHomed = true) do
    ofExcept (btcHomedChecks pv s)
    consumeBitcoin D pv
  ofExcept (rootChecks D pv memos s)
  spendSection D pv
  cdpSection D env pv
  cbtcSection D env pv
  countNullifiers pv btcHomed
  forEach pv.depositsConsumed consumeDeposit
  bridgeSection pv
  leafSection D pv
  payoutSection D env pv
  recordCrossOuts D pv [] pv.crossOuts
  forEach pv.swaps fun w => updatePool w.poolId (settleSwap · w)
  forEach pv.liquidity fun l => updatePool l.poolId (settleLiquidity · l)

end ConfidentialPool

end Tacit
