import Tacit.Pool.Settle
/-!
# The pool's entry points and its histories

A history of the pool is a list of calls by anyone, with any inputs and any environment; a call that reverts
changes nothing. `construct` is the constructor's part that writes storage.
-/
namespace Tacit

open Prog

namespace ConfidentialPool

variable (D : Deployment) (env : Env)

/-! ## Attest -/

/-- The configuration an attest reads (:1684). -/
def attestConfig (s : Storage) : ReflectionLib.Config where
  self := D.self
  headerRelay := env.headerRelay
  predecessor := env.predecessor
  bitcoinRelayVkey := D.bitcoinRelayVkey
  chainBinding := D.chainBinding
  reflectionConfirmations := D.reflectionConfirmations
  bitcoinConsumedCount := s.consumed.count
  crossOutCount := s.crossOuts.count

/-- The first attest after retirement writes the handoff record (:1727-:1732). -/
def recordHandoff : Prog Storage PoolError Unit := do
  let s ← get
  onlyIf (s.successor ≠ 0 ∧ s.handoffDigest = 0) (modify fun s => { s with
    handoffDigest := s.reflection.knownReflectionDigest
    handoffTip := s.reflection.lastReflectionBlockHash
    handoffConsumedCount := s.consumed.count
    handoffCrossOutCount := s.crossOuts.count })

/-- `attestBitcoinStateProven` (:1680). -/
def attestBitcoinStateProven (r : ReflectionLib.BitcoinRelayPublicValues) : Prog Storage PoolError Unit := do
  let s ← get
  let metas ← zoom Storage.reflection (fun l s => { s with reflection := l })
    (ReflectionLib.attest D.keccak (attestConfig D env s) env.verified r)
  recordHandoff
  forEach metas (autoRegisterFromMeta D env)

/-- `drainOverflow` (:2396). -/
def drainOverflow (c : ReflectionLib.Chunk) : Prog Storage PoolError Unit := do
  let metas ← zoom Storage.reflection (fun l s => { s with reflection := l }) (ReflectionLib.drainOverflow D.keccak c)
  forEach metas (autoRegisterFromMeta D env)

/-- `drainOverflowRoots` (:2433). -/
def drainOverflowRoots (subroots : List Word) (level : Nat) : Prog Storage PoolError Unit :=
  zoom Storage.reflection (fun l s => { s with reflection := l })
    (ReflectionLib.drainOverflowRoots D.keccak subroots level)

/-! ## Generations -/

/-- `createNextGen` (:1129). -/
def createNextGen : Prog Storage PoolError Unit := do
  check (env.sender ≠ D.lineageSteward) .notAuthorized
  let s ← get
  check (s.successor ≠ 0) .alreadyRetired
  callOut D env .create2
  -- the zero address has no code
  check (env.created = 0 ∨ env.hasCode env.created = false) .notAContract
  modify fun s => { s with successor := env.created }

/-- `createPairAndSettle` (:1343). -/
def createPairAndSettle (assetA assetB : Word) (feeBps : Nat) (pv : PublicValues) (memos : List Bytes) :
    Prog Storage PoolError Unit := do
  let _ ← ensurePair D assetA assetB feeBps 0 0 0 false
  settle D env pv memos

/-! ## Construction -/

/-- The empty tree (:953-:970). -/
def Tree.empty (K : Keccak) : Tree where
  nextLeafIndex := 0
  currentRoot := Merkle.zeros K.k2 0 treeLevels
  filledSubtrees := Merkle.zeros K.k2 0
  everKnownRoot r := r = Merkle.zeros K.k2 0 treeLevels

/-- The storage before the constructor registers its assets. -/
def Storage.blank (K : Keccak) (digest last : Word) : Storage where
  reflection := ReflectionLib.Storage.deployed digest last
  notes := Tree.empty K
  lockTree := Tree.empty K
  cdpTree := Tree.empty K
  nullifierSpent _ := false
  evmNullifiersSpent := 0
  assets _ := AssetStore.none
  localAssetOf _ := 0
  escrow _ := 0
  pools _ := Pool.none
  lpShares _ _ := 0
  depositStatus _ := 0
  bridgeMinted _ := false
  crossOuts := ⟨fun _ => 0, fun _ => 0, 0⟩
  lockSpent _ := false
  consumed := ⟨fun _ => 0, fun _ => 0, 0⟩
  cbtcMinted _ := false
  cdpPositionSpent _ := false
  cdpPositionLeafInserted _ := false
  harvestConsumed _ := false
  farmRewardAsset _ := 0
  farmTreasury _ := 0
  successor := 0
  handoffDigest := 0
  handoffTip := 0
  handoffConsumedCount := 0
  handoffCrossOutCount := 0

/-- A pool-minted asset the constructor registers (:987-:1031). -/
def registerGenesis (assetId cid : Word) : Prog Storage PoolError Unit := do
  let token ← canonicalToken D env assetId cid
  let _ ← register D env token (10 ^ 10) assetId true ethDecimals
  return ()

/-- The ids and metadata of the constructor's assets (:375-:393). -/
structure Genesis where
  tac : Word × Word
  cbtc : Word × Word
  cusdCid : Word

/-- The asset registrations of the constructor (:977-:1032). -/
def construct (g : Genesis) : Prog Storage PoolError Unit := do
  onlyIf (D.tethBitcoinLink ≠ 0) do
    let _ ← register D env 0 (10 ^ 10) D.tethBitcoinLink false ethDecimals
    return ()
  onlyIf (D.canonicalFactory ≠ 0) (registerGenesis D env g.tac.1 g.tac.2)
  onlyIf (D.collateralEngine ≠ 0) do
    registerGenesis D env g.cbtc.1 g.cbtc.2
    registerGenesis D env (cdpDebtAsset D D.collateralEngine) g.cusdCid

/-! ## Histories -/

/-- A call of an external function. -/
inductive Call
  | registerWrapped (underlying : Address) (unitScale : Nat) (crossChainLink : Word) (decimals : Nat)
  | registerWrappedAuto (underlying : Address) (crossChainLink : Word)
  | registerMinted (canonicalErc20 : Address) (tacitDecimals : Nat)
  | wrap (assetId : Word) (amount : Nat) (commit : Word)
  | createPair (assetA assetB : Word) (feeBps rcptPrefix : Nat) (rcptX : Word) (protocolFeeBps : Nat)
  | createPairAndSettle (assetA assetB : Word) (feeBps : Nat) (pv : PublicValues) (memos : List Bytes)
  | applyPublicAddLiquidity (assetLo assetHi : Word) (feeBps amtLo amtHi minted addLo addHi : Nat) (recipient : Address)
  | applyPublicRemoveLiquidity (assetA assetB : Word) (feeBps shares : Nat) (owner recipient : Address)
  | applyPublicSwap (assetIn assetOut : Word) (feeBps amountIn vOut : Nat) (recipient : Address)
  | shieldShares (poolId : Word) (shares : Nat) (commit : Word)
  | farmEscrow (controller : Address) (rewardAsset : Word) (amount : Nat) (recipient : Address)
  | attestBitcoinStateProven (r : ReflectionLib.BitcoinRelayPublicValues)
  | advanceReflectionAncestry
  | settle (pv : PublicValues) (memos : List Bytes)
  | drainOverflow (c : ReflectionLib.Chunk)
  | drainOverflowRoots (subroots : List Word) (level : Nat)
  | createNextGen

/-- Run a program for its effect. -/
def discard {α : Type} (m : Prog Storage PoolError α) : Prog Storage PoolError Unit := do
  let _ ← m
  return ()

def Call.prog : Call → Prog Storage PoolError Unit
  | registerWrapped underlying unitScale crossChainLink decimals =>
    discard (ConfidentialPool.registerWrapped D env underlying unitScale crossChainLink decimals)
  | registerWrappedAuto underlying crossChainLink =>
    discard (ConfidentialPool.registerWrappedAuto D env underlying crossChainLink)
  | registerMinted canonicalErc20 tacitDecimals =>
    discard (ConfidentialPool.registerMinted D env canonicalErc20 tacitDecimals)
  | wrap assetId amount commit => ConfidentialPool.wrap D env assetId amount commit
  | createPair assetA assetB feeBps rcptPrefix rcptX protocolFeeBps =>
    discard (ConfidentialPool.createPair D assetA assetB feeBps rcptPrefix rcptX protocolFeeBps)
  | createPairAndSettle assetA assetB feeBps pv memos =>
    ConfidentialPool.createPairAndSettle D env assetA assetB feeBps pv memos
  | applyPublicAddLiquidity assetLo assetHi feeBps amtLo amtHi minted addLo addHi recipient =>
    discard (ConfidentialPool.applyPublicAddLiquidity D env assetLo assetHi feeBps amtLo amtHi minted addLo addHi recipient)
  | applyPublicRemoveLiquidity assetA assetB feeBps shares owner recipient =>
    discard (ConfidentialPool.applyPublicRemoveLiquidity D env assetA assetB feeBps shares owner recipient)
  | applyPublicSwap assetIn assetOut feeBps amountIn vOut recipient =>
    discard (ConfidentialPool.applyPublicSwap D env assetIn assetOut feeBps amountIn vOut recipient)
  | shieldShares poolId shares commit => discard (ConfidentialPool.shieldShares D env poolId shares commit)
  | farmEscrow controller rewardAsset amount recipient =>
    discard (ConfidentialPool.farmEscrow D env controller rewardAsset amount recipient)
  | attestBitcoinStateProven r => ConfidentialPool.attestBitcoinStateProven D env r
  | advanceReflectionAncestry => ConfidentialPool.advanceReflectionAncestry D env
  | settle pv memos => ConfidentialPool.settle D env pv memos
  | drainOverflow c => ConfidentialPool.drainOverflow D env c
  | drainOverflowRoots subroots level => ConfidentialPool.drainOverflowRoots D subroots level
  | createNextGen => ConfidentialPool.createNextGen D env

/-- The batch a call settles. -/
def Call.batch : Call → Option PublicValues
  | settle pv _ => some pv
  | createPairAndSettle _ _ _ pv _ => some pv
  | _ => none

/-- A storage a constructor leaves. -/
def Deployed (s : Storage) : Prop :=
  ∃ env g digest last, construct D env g (Storage.blank D.keccak digest last) = .ok () s

/-- The storage after a list of calls, the reverted ones included. -/
def run (s : Storage) (calls : List (Env × Call)) : Storage := calls.foldl (fun s c => (c.2.prog D c.1).call s) s

/-- The storages reached by calls that meet a condition. -/
inductive Reachable (ok : Call → Prop) : Storage → Prop
  | deployed {s : Storage} : Deployed D s → Reachable ok s
  | call {s : Storage} (env : Env) (c : Call) : Reachable ok s → ok c → Reachable ok ((c.prog D env).call s)

/-- **Invariants over histories**: what a deployment has and every accepted call keeps, every reachable storage
has. -/
theorem Reachable.induct {ok : Call → Prop} {I : Storage → Prop} (hdeploy : ∀ s, Deployed D s → I s)
    (hcall : ∀ env c s t, ok c → I s → c.prog D env s = .ok () t → I t) {s : Storage} (hs : Reachable D ok s) : I s := by
  induction hs with
  | deployed h => exact hdeploy _ h
  | call env c _ hok ih => exact call_keeps ih fun _ t h => hcall env c _ t hok ih h

/-! A deployment without a relay, a factory or an engine, and a call by its public AMM in a world where every
outgoing call succeeds. -/

def demoDeployment (K : Keccak) : Deployment where
  keccak := K
  sha256 b := ⟨1 :: (b ++ List.replicate 31 0).take 31, by simp⟩
  chainId := 1
  self := 5
  bitcoinRelayVkey := 0
  reflectionConfirmations := 0
  canonicalFactory := 0
  tethBitcoinLink := 0
  collateralEngine := 0
  publicAmm := 7
  lineageSteward := 8

def demoEnv : Env where
  sender := 7
  value := 0
  timestamp := 0
  verified := true
  headerRelay := none
  predecessor := none
  hasCode _ := true
  succeeds _ := true
  reenters _ := []
  received _ amount := some amount
  minter _ := some 5
  decimals _ := some 18
  assetIdOf _ := none
  tokenOf _ _ _ := 0
  deployed _ := 0
  created := 9
  rewardAsset _ := none
  outstandingReward _ := none
  escrowSufficient _ _ := none

theorem demo_deployed (K : Keccak) : Deployed (demoDeployment K) (Storage.blank K 0 0) :=
  ⟨demoEnv, ⟨(0, 0), (0, 0), 0⟩, 0, 0, rfl⟩

end ConfidentialPool

end Tacit
