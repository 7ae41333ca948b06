import Tacit.Notes
import Tacit.Relay.State
/-!
# The attest surface of the pool (contracts/src/ReflectionLib.sol)

The library runs by delegatecall on the pool's storage; `Storage` is the part of it the attest calls write:
the `ReflectionState` values, the cBTC lock registry, the overflow queue and the ancestry cursor. The proof
verifier's answer and the decoded public values are inputs; what the relay and a predecessor pool answer is
their state at the call.
-/
namespace Tacit

open Prog

/-- The custom errors of `ConfidentialPool` and `ReflectionLib` (the selectors agree), a Solidity panic, and
a revert inside an external call. -/
inductive PoolError
  | expired | zeroVKey | sameAsset | badVersion | feeTooHigh | poolExists | badDecimals | poolNotInit
  | poolRetired | unknownRoot | zeroAddress | notAContract | unsortedLegs | wrongEthPool | chainMismatch
  | depositExists | notAuthorized | notRegistered | poolNotMinter | alreadyRetired | canonicalAsset
  | merkleTreeFull | refundTooEarly | unknownCdpRoot | badBtcCallPairs | harvestReplayed | metaNotDeferred
  | staleRelayProof | unknownLockRoot | valueOutOfRange | amountNotAligned | badCdpController
  | cbtcLockMismatch | crossChainEscrow | ethValueMismatch | lockAlreadySpent | memoLeafMismatch
  | badOverflowLevel | alreadyRegistered | burnAlreadyMinted | depositNotPending | consumedCountStale
  | insufficientEscrow | reserveFloorBreach | unknownBitcoinRoot | cbtcOverflowPending | crossChainLinkTaken
  | poolReserveMismatch | zeroBitcoinPoolRoot | staleBitcoinBurnRoot | unanchoredReflection
  | crossOutClaimMismatch | insufficientLiquidity | nullifierAlreadySpent | staleBitcoinSpentRoot
  | staleReflectionDigest | bridgeBurnNotNullified | bridgeMintRootMismatch | cdpPositionAlreadySpent
  | crossChainTokenMismatch | crossOutUnsupportedDest | constantProductDecreased | duplicateBridgeNullifier
  | feeOnTransferUnsupported | crossOutNullifierNotSpent | btcHomedValueExitMustBridge
  | arithmetic | external
deriving DecidableEq

namespace ReflectionLib

/-- `REFLECTION_MAX_LAG` (:47). -/
def reflectionMaxLag : Nat := 2016

structure CbtcLockFolded where
  outpoint : Word
  vBtc : Nat
  commitment : Word
deriving DecidableEq

structure AssetMeta where
  assetId : Word
  ticker : Bytes
  tickerLen : Nat
  decimals : Nat
  cid : Word
deriving DecidableEq

/-- `BitcoinRelayPublicValues` (:86), the fields the contracts read. -/
structure BitcoinRelayPublicValues where
  priorDigest : Word
  bitcoinPoolRoot : Word
  bitcoinSpentRoot : Word
  bitcoinBurnRoot : Word
  bitcoinHeight : Nat
  newDigest : Word
  bitcoinPrevHash : Word
  bitcoinTipHash : Word
  ethPoolReflected : Word
  cbtcBackingSats : Nat
  cbtcLocksFolded : List CbtcLockFolded
  cbtcLocksSpent : List Word
  cbtcLocksRedeemed : List Word
  consumedCount : Nat
  crossOutCount : Nat
  foldedCrossOutCount : Nat
  attestedAssetMetas : List AssetMeta
  btcCallsFolded : List Word
  rebasedFromDigest : Word
  chainBinding : Word
  overflowRoots : List Word
  overflowRootLevel : Nat

/-- What a predecessor pool's views answer (`IPredecessorPoolLib`). -/
structure Predecessor where
  attestedReflectionDigest : Word
  attestedBitcoinConsumedCount : Nat
  attestedCrossOutCount : Nat
  attestedReflectionTip : Word
  handoffReflectionDigest : Word
  handoffReflectionTip : Word
  handoffConsumed : Nat
  handoffCrossOuts : Nat

/-- `Config` (:138); `none` is the zero address, `self` is `address(this)`. -/
structure Config where
  self : Address
  headerRelay : Option Relay
  predecessor : Option Predecessor
  bitcoinRelayVkey : Word
  chainBinding : Word
  reflectionConfirmations : Nat
  bitcoinConsumedCount : Nat
  crossOutCount : Nat

/-- `Ancestry` (:152). -/
structure Ancestry where
  checkpoint : Word
  anchor : Word
  cursor : Word
  cursorAnchor : Word
deriving DecidableEq

/-- The cBTC lock mappings. -/
structure Locks where
  vBtc : Word → Nat
  commitment : Word → Word
  spent : Word → Bool
  redeemed : Word → Bool

/-- The overflow queue and its counter. -/
structure Overflow where
  queue : Word → Nat
  pending : Nat

structure Storage where
  knownReflectionDigest : Word
  knownBitcoinSpentRoot : Word
  knownBitcoinBurnRoot : Word
  cbtcBackingSats : Nat
  lastReflectionBlockHash : Word
  lastRelayHeight : Nat
  generationalRebaseSettled : Bool
  knownBitcoinRoot : Word → Bool
  locks : Locks
  pendingBtcCall : Word → Word
  overflow : Overflow
  ancestry : Ancestry

/-- A deployed pool's attest storage: nothing attested, `last` the genesis anchor. -/
def Storage.deployed (digest last : Word) : Storage where
  knownReflectionDigest := digest
  knownBitcoinSpentRoot := 0
  knownBitcoinBurnRoot := 0
  cbtcBackingSats := 0
  lastReflectionBlockHash := last
  lastRelayHeight := 0
  generationalRebaseSettled := false
  knownBitcoinRoot _ := false
  locks := ⟨fun _ => 0, fun _ => 0, fun _ => false, fun _ => false⟩
  pendingBtcCall _ := 0
  overflow := ⟨fun _ => 0, 0⟩
  ancestry := ⟨0, 0, 0, 0⟩

/-! ## Lock effects -/

namespace Locks

/-- An outpoint whose lock was spent or redeemed. -/
def terminal (l : Locks) (o : Word) : Bool := l.spent o || l.redeemed o

/-- One registration (:272-:277, :365-:368). -/
def register (l : Locks) (f : CbtcLockFolded) : Locks :=
  if f.outpoint = 0 ∨ l.vBtc f.outpoint ≠ 0 ∨ l.terminal f.outpoint then l
  else { l with
    vBtc := Function.update l.vBtc f.outpoint f.vBtc
    commitment := Function.update l.commitment f.outpoint f.commitment }

/-- One spend (:280-:282). -/
def spend (l : Locks) (o : Word) : Locks :=
  if o = 0 ∨ l.terminal o then l else { l with spent := Function.update l.spent o true }

/-- One redemption (:285-:287). -/
def redeem (l : Locks) (o : Word) : Locks :=
  if o = 0 ∨ l.terminal o then l else { l with redeemed := Function.update l.redeemed o true }

end Locks

/-- `for (i; i + 1 < calls.length; i += 2) pendingBtcCall[calls[i]] = calls[i + 1]`. -/
def recordCalls (m : Word → Word) : List Word → (Word → Word)
  | id :: c :: rest => recordCalls (Function.update m id c) rest
  | _ => m

/-! ## The overflow queue -/

namespace Overflow

/-- Queue a root at `level` unless it is zero or queued (:302-:307, :403-:408). A root is one of fewer than
`2^256` words, so the unchecked increment cannot wrap. -/
def enqueue (q : Overflow) (level : Nat) (root : Word) : Overflow :=
  if root ≠ 0 ∧ q.queue root = 0 then ⟨Function.update q.queue root level, q.pending + 1⟩ else q

/-- `delete overflowQueue[root]` and the unchecked decrement. -/
def dequeue (q : Overflow) (root : Word) : Overflow :=
  ⟨Function.update q.queue root 0, if q.pending = 0 then 2 ^ 256 - 1 else q.pending - 1⟩

end Overflow

/-- The running hash of a chunk's leaves. -/
def chainRoot (K : Keccak) (leaves : List Word) : Word := leaves.foldl K.k2 0

/-- A deferred chunk, as its drainer supplies it. -/
structure Chunk where
  terminals : List Word
  spentCount : Nat
  locks : List CbtcLockFolded
  metas : List AssetMeta
  calls : List Word

def terminalLeaf (K : Keccak) (spent : Bool) (o : Word) : Word := K.kn [[if spent then 0x04 else 0x05], o.bytes]

def lockLeaf (K : Keccak) (f : CbtcLockFolded) : Word :=
  K.kn [[0x01], f.outpoint.bytes, beBytes 8 (f.vBtc % 2 ^ 64), f.commitment.bytes]

def metaLeaf (K : Keccak) (m : AssetMeta) : Word :=
  K.kn [[0x02], m.assetId.bytes, m.ticker, [m.tickerLen], [m.decimals], m.cid.bytes]

def callLeaves (K : Keccak) : List Word → List Word
  | id :: c :: rest => K.kn [[0x03], id.bytes, c.bytes] :: callLeaves K rest
  | _ => []

namespace Chunk

/-- `terminals[0 .. spentCount)`, the lock spends. -/
def spends (c : Chunk) : List Word := c.terminals.take c.spentCount

/-- `terminals[spentCount ..]`, the redemptions. -/
def redeems (c : Chunk) : List Word := c.terminals.drop c.spentCount

/-- The leaves in the guest's committed order. -/
def leaves (K : Keccak) (c : Chunk) : List Word :=
  c.spends.map (terminalLeaf K true) ++ c.redeems.map (terminalLeaf K false) ++ c.locks.map (lockLeaf K) ++
    c.metas.map (metaLeaf K) ++ callLeaves K c.calls

def root (K : Keccak) (c : Chunk) : Word := chainRoot K (c.leaves K)

end Chunk

/-- The root of a wrapped chunk of roots. -/
def metaRoot (K : Keccak) (subroots : List Word) : Word :=
  chainRoot K (subroots.map fun r => K.kn [[0x06], r.bytes])

/-- `drainOverflow` (:314); the metas are registered by the pool. -/
def drainOverflow (K : Keccak) (c : Chunk) : Prog Storage PoolError (List AssetMeta) := do
  check (c.calls.length % 2 ≠ 0 ∨ c.terminals.length < c.spentCount) .badBtcCallPairs
  forEach c.locks fun f => check (f.vBtc = 0 ∨ 2 ^ 64 ≤ f.vBtc) .valueOutOfRange
  let acc := c.root K
  let s ← get
  check (s.overflow.queue acc ≠ 1) .metaNotDeferred
  modify fun s => { s with
    overflow := s.overflow.dequeue acc
    -- the terminals come before the registrations
    locks := c.locks.foldl Locks.register (c.redeems.foldl Locks.redeem (c.spends.foldl Locks.spend s.locks))
    pendingBtcCall := recordCalls s.pendingBtcCall c.calls }
  return c.metas

/-- `drainOverflowRoots` (:384). -/
def drainOverflowRoots (K : Keccak) (subroots : List Word) (level : Nat) : Prog Storage PoolError Unit := do
  check (level < 2) .badOverflowLevel
  let acc := metaRoot K subroots
  let s ← get
  check (s.overflow.queue acc ≠ level) .metaNotDeferred
  modify fun s => { s with overflow := subroots.foldl (Overflow.enqueue · (level - 1)) (s.overflow.dequeue acc) }

/-! ## Ancestry -/

/-- `_maturedAnchor` (:714): `confirmations` parents below the tip. -/
def maturedFrom (relay : Relay) : Nat → Word → Option Word
  | 0, b => some b
  | n + 1, b => if b = 0 then none else maturedFrom relay n (relay.blocks b).parent

def maturedAnchor (relay : Relay) (confirmations : Nat) : Option Word := maturedFrom relay confirmations relay.tip

/-- The loop of `_isAnchorOrAncestor` (:756). -/
def findsBelow (relay : Relay) (h : Word) : Nat → Word → Bool
  | 0, _ => false
  | n + 1, walk =>
    let walk := (relay.blocks walk).parent
    if walk = 0 then false else if walk = h then true else findsBelow relay h n walk

/-- `_isAnchorOrAncestor` (:756). -/
def isAnchorOrAncestor (relay : Relay) (h anchor : Word) : Bool :=
  if h = 0 then false else if h = anchor then true else findsBelow relay h reflectionMaxLag anchor

/-- `_within` (:710). -/
def within (low high : Nat) : Bool := low ≤ high ∧ high - low ≤ reflectionMaxLag

/-- `_anchorReflection` (:672). -/
def anchorReflection (relay : Relay) (confirmations : Nat) (a : Ancestry) (last prev tip : Word) :
    Except PoolError Unit := do
  refuse (prev ≠ last) .unanchoredReflection
  let matured ← need (maturedAnchor relay confirmations) .unanchoredReflection
  if a.checkpoint = 0 then
    refuse (isAnchorOrAncestor relay tip matured = false) .unanchoredReflection
  else
    let hMatured := (relay.blocks matured).height
    let hTip := (relay.blocks tip).height
    refuse (hTip = 0) .unanchoredReflection
    if within hTip hMatured then
      refuse (isAnchorOrAncestor relay tip matured = false) .unanchoredReflection
    else
      refuse ((within hTip (relay.blocks a.checkpoint).height && within (relay.blocks a.anchor).height hMatured &&
        isAnchorOrAncestor relay a.anchor matured && isAnchorOrAncestor relay tip a.checkpoint) = false)
        .unanchoredReflection

/-- The walk of `advanceAncestry`: `steps` parents, none of them the zero hash. -/
def walkBack (relay : Relay) : Nat → Word → Option Word
  | 0, walk => some walk
  | n + 1, walk =>
    let walk := (relay.blocks walk).parent
    if walk = 0 then none else walkBack relay n walk

/-- Where a call of the walk starts and the anchor it belongs to: the cursor while that is still usable, else
the matured anchor (:737-:741). -/
def walkStart (relay : Relay) (a : Ancestry) (target : Nat) (matured : Word) : Word × Word :=
  if a.cursor = 0 ∨ (relay.blocks a.cursor).height < target ∨
      within (relay.blocks a.cursorAnchor).height (relay.blocks matured).height = false ∨
      isAnchorOrAncestor relay a.cursorAnchor matured = false
  then (matured, matured) else (a.cursor, a.cursorAnchor)

/-- The parents one call walks (:743-:744). -/
def walkSteps (height target : Nat) : Nat :=
  let steps := if height > target then height - target else 0
  if steps > reflectionMaxLag then reflectionMaxLag else steps

/-- `advanceAncestry` (:725). -/
def advanceAncestry (relay : Relay) (confirmations : Nat) (lastReflected : Word) (a : Ancestry) :
    Except PoolError Ancestry := do
  let lastHeight := (relay.blocks lastReflected).height
  refuse (lastHeight = 0) .unanchoredReflection
  let target ← need (uint256 (lastHeight + reflectionMaxLag)) .arithmetic
  let matured ← need (maturedAnchor relay confirmations) .unanchoredReflection
  let start := walkStart relay a target matured
  let height := (relay.blocks start.1).height
  let steps := walkSteps height target
  let walk ← need (walkBack relay steps start.1) .unanchoredReflection
  return if height - steps ≤ target then ⟨walk, start.2, 0, 0⟩ else ⟨a.checkpoint, a.anchor, walk, start.2⟩

/-- `advanceReflectionAncestry` (ConfidentialPool.sol:1740). -/
def advanceReflectionAncestry (relay : Relay) (confirmations : Nat) : Prog Storage PoolError Unit := do
  let s ← get
  let a ← ofExcept (advanceAncestry relay confirmations s.lastReflectionBlockHash s.ancestry)
  modify fun s => { s with ancestry := a }

/-! ## Attest -/

/-- The block a batch must continue, and the checks on the digest it resumes (:218-:250). -/
def continuity (K : Keccak) (cfg : Config) (r : BitcoinRelayPublicValues) (s : Storage) :
    Except PoolError (Word × Bool) :=
  match cfg.predecessor, s.generationalRebaseSettled with
  | some pred, false =>
    if pred.handoffReflectionDigest ≠ 0 ∧ r.rebasedFromDigest =
        K.kn [pred.handoffReflectionDigest.bytes, beBytes 32 pred.handoffConsumed, beBytes 32 pred.handoffCrossOuts] then
      .ok (pred.handoffReflectionTip, true)
    else if r.rebasedFromDigest =
        K.kn [pred.attestedReflectionDigest.bytes, beBytes 32 pred.attestedBitcoinConsumedCount,
          beBytes 32 pred.attestedCrossOutCount] then
      .ok (pred.attestedReflectionTip, true)
    else .error .staleReflectionDigest
  | _, settled => do
    refuse (r.rebasedFromDigest ≠ 0) .staleReflectionDigest
    refuse (r.priorDigest ≠ s.knownReflectionDigest) .staleReflectionDigest
    return (s.lastReflectionBlockHash, settled)

/-- The checks before any write (:208-:260): the block to continue and the migration flag. -/
def attestChecks (K : Keccak) (cfg : Config) (verified : Bool) (r : BitcoinRelayPublicValues) (s : Storage) :
    Except PoolError (Word × Bool) := do
  refuse (cfg.bitcoinRelayVkey = 0) .zeroVKey
  refuse (verified = false) .external
  let ethPool : Address := r.ethPoolReflected.toNat % 2 ^ 160
  refuse (ethPool ≠ cfg.self ∧ ethPool ≠ 0) .wrongEthPool
  refuse (r.chainBinding ≠ cfg.chainBinding) .chainMismatch
  let resumed ← continuity K cfg r s
  refuse (r.newDigest = 0) .staleReflectionDigest
  refuse (r.bitcoinHeight < s.lastRelayHeight) .staleRelayProof
  refuse (r.bitcoinSpentRoot = 0) .staleBitcoinSpentRoot
  refuse (r.bitcoinBurnRoot = 0) .staleBitcoinBurnRoot
  refuse (r.bitcoinPoolRoot = 0) .zeroBitcoinPoolRoot
  refuse (r.consumedCount ≠ cfg.bitcoinConsumedCount) .consumedCountStale
  refuse ((if ethPool = cfg.self then r.crossOutCount else r.foldedCrossOutCount) ≠ cfg.crossOutCount)
    .consumedCountStale
  return resumed

/-- The anchoring step (:261-:264): the new last attested tip. -/
def anchored (cfg : Config) (r : BitcoinRelayPublicValues) (prevAnchor : Word) (s : Storage) : Except PoolError Word :=
  match cfg.headerRelay with
  | none => .ok s.lastReflectionBlockHash
  | some relay => do
    anchorReflection relay cfg.reflectionConfirmations s.ancestry prevAnchor r.bitcoinPrevHash r.bitcoinTipHash
    return r.bitcoinTipHash

/-- `attest` (:190); the metas are registered by the pool. -/
def attest (K : Keccak) (cfg : Config) (verified : Bool) (r : BitcoinRelayPublicValues) :
    Prog Storage PoolError (List AssetMeta) := do
  let s ← get
  let resumed ← ofExcept (attestChecks K cfg verified r s)
  let last ← ofExcept (anchored cfg r resumed.1 s)
  forEach r.cbtcLocksFolded fun f => check (f.vBtc = 0 ∨ 2 ^ 64 ≤ f.vBtc) .valueOutOfRange
  check (r.btcCallsFolded.length % 2 ≠ 0) .badBtcCallPairs
  let level := if r.overflowRootLevel = 0 then 1 else r.overflowRootLevel
  modify fun s => { s with
    generationalRebaseSettled := resumed.2
    lastReflectionBlockHash := last
    lastRelayHeight := r.bitcoinHeight
    knownBitcoinRoot := Function.update s.knownBitcoinRoot r.bitcoinPoolRoot true
    knownBitcoinSpentRoot := r.bitcoinSpentRoot
    knownBitcoinBurnRoot := r.bitcoinBurnRoot
    knownReflectionDigest := r.newDigest
    cbtcBackingSats := r.cbtcBackingSats
    -- the registrations come before the terminals
    locks := r.cbtcLocksRedeemed.foldl Locks.redeem
      (r.cbtcLocksSpent.foldl Locks.spend (r.cbtcLocksFolded.foldl Locks.register s.locks))
    pendingBtcCall := recordCalls s.pendingBtcCall r.btcCallsFolded
    overflow := r.overflowRoots.foldl (Overflow.enqueue · level) s.overflow }
  return r.attestedAssetMetas

end ReflectionLib

end Tacit
