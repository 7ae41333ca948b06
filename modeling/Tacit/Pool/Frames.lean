import Tacit.Pool.Calls
/-!
# What most of the pool's code does not touch

A property of the pool looks at a few storage slots. `Blind R` says that the relation `R` does not see the
others: the reflection state, the registry, the LP balances, the farm treasuries, the position and lock trees,
and that it accepts a new empty pair and a release of escrow. Every helper of the pool keeps such a relation,
so a property has to be proved only where its own slots are written.
-/
namespace Tacit

open Prog

namespace ConfidentialPool

/-- A relation that only sees the slots a property is about, and the count of spent nullifiers. -/
structure Still (R : Storage → Storage → Prop) : Prop where
  preorder : IsPreorder Storage R
  pair : ∀ s id lo hi feeBps, (s.pools id).init = false → feeBps ≤ maxPoolFeeBps →
    R s { s with pools := Function.update s.pools id ⟨true, lo, hi, 0, 0, feeBps, 0⟩ }
  reflection : ∀ s r, R s { s with reflection := r }
  registry : ∀ s a l, R s { s with assets := a, localAssetOf := l }
  release : ∀ s id amount, R s { s with escrow := Function.update s.escrow id (s.escrow id - amount) }
  shares : ∀ s l, R s { s with lpShares := l }
  farms : ∀ s a t, R s { s with farmRewardAsset := a, farmTreasury := t }
  positions : ∀ s m t, R s { s with cdpPositionLeafInserted := m, cdpTree := t }
  harvests : ∀ s m, R s { s with harvestConsumed := m }
  lockTree : ∀ s t, R s { s with lockTree := t }

/-- A relation that only sees the slots a property is about. -/
structure Blind (R : Storage → Storage → Prop) : Prop extends Still R where
  evmCount : ∀ s n, R s { s with evmNullifiersSpent := n }

variable {D : Deployment} {env : Env} {R : Storage → Storage → Prop}

namespace Still

/-! ## Calls out -/

theorem ensurePair (hR : Still R) {assetA assetB rcptX : Word} {feeBps rcptPrefix protocolFeeBps : Nat} {b : Bool} :
    Keeps R (ConfidentialPool.ensurePair D assetA assetB feeBps rcptPrefix rcptX protocolFeeBps b) := by
  have := hR.preorder
  intro s id t hok
  simp only [ConfidentialPool.ensurePair, bind_eq_ok, get_eq_ok, check_eq_ok, ite_eq_ok, pure_eq_ok, modify_eq_ok] at hok
  obtain ⟨_, _, ⟨rfl, rfl⟩, _, _, ⟨-, rfl⟩, _, _, ⟨-, rfl⟩, _, s₀, ⟨hfee, rfl⟩,
    ⟨-, _, _, ⟨-, rfl⟩, -, rfl⟩ | ⟨hinit, _, _, rfl, -, rfl⟩⟩ := hok
  · exact refl_of R _
  · exact hR.pair _ _ _ _ _ (by simpa using hinit) (by omega)

theorem advanceReflectionAncestry (hR : Still R) : Keeps R (ConfidentialPool.advanceReflectionAncestry D env) := by
  have := hR.preorder
  exact .bind .orThrow fun _ => .zoom fun s r => hR.reflection s r

theorem reenter (hR : Still R) (r : Reentry) : Keeps R (ConfidentialPool.reenter D env r) := by
  have := hR.preorder
  cases r with
  | createPair assetA assetB feeBps rcptPrefix rcptX protocolFeeBps =>
    rintro s ⟨⟩ t ⟨⟩
    exact call_keeps (I := R s) (refl_of R s) fun _ _ hok => hR.ensurePair hok
  | advanceReflectionAncestry =>
    rintro s ⟨⟩ t ⟨⟩
    exact call_keeps (I := R s) (refl_of R s) fun _ _ hok => hR.advanceReflectionAncestry hok

theorem callOut (hR : Still R) (c : Out) : Keeps R (ConfidentialPool.callOut D env c) := by
  have := hR.preorder
  exact .bind (.forEach fun r _ => hR.reenter r) fun _ => .check

/-! ## The registry -/

theorem registerExternal (hR : Still R) {underlying : Address} {unitScale decimals : Nat} :
    Keeps R (ConfidentialPool.registerExternal D env underlying unitScale decimals) := by
  have := hR.preorder
  exact .bind .check fun _ => .bind .check fun _ => .bind .orThrow fun _ => .bind .check fun _ => .check

theorem linkAsset (hR : Still R) {underlying : Address} {crossChainLink : Word} {poolMinted : Bool} :
    Keeps R (ConfidentialPool.linkAsset env underlying crossChainLink poolMinted) := by
  have := hR.preorder
  refine .bind (.onlyIf (.bind .check fun _ => .check)) fun _ => .bind .get fun _ => .bind .check fun _ => ?_
  exact .modify fun s => hR.registry s s.assets _

theorem register (hR : Still R) {underlying : Address} {unitScale decimals : Nat} {crossChainLink : Word}
    {poolMinted : Bool} :
    Keeps R (ConfidentialPool.register D env underlying unitScale crossChainLink poolMinted decimals) := by
  have := hR.preorder
  refine .bind .check fun _ => .bind .check fun _ => .bind (.onlyIf hR.registerExternal) fun _ => .bind .check fun _ => ?_
  refine .bind .get fun _ => .bind .check fun _ => .bind (.onlyIf hR.linkAsset) fun _ => ?_
  exact .bind (.modify fun s => hR.registry s _ s.localAssetOf) fun _ => .pure

theorem canonicalToken (hR : Still R) {assetId cid : Word} : Keeps R (ConfidentialPool.canonicalToken D env assetId cid) := by
  have := hR.preorder
  exact .ite .pure (.bind (hR.callOut _) fun _ => .pure)

theorem healOrRegister (hR : Still R) {m : ReflectionLib.AssetMeta} {token : Address} :
    Keeps R (ConfidentialPool.healOrRegister D env m token) := by
  have := hR.preorder
  refine .bind .get fun _ => .ite (.modify fun s => hR.registry s _ _) ?_
  exact .bind .orThrow fun _ => .onlyIf (.bind hR.register fun _ => .pure)

theorem autoRegisterFromMeta (hR : Still R) (m : ReflectionLib.AssetMeta) :
    Keeps R (ConfidentialPool.autoRegisterFromMeta D env m) := by
  have := hR.preorder
  exact .bind .get fun _ => .onlyIf (.bind hR.canonicalToken fun _ => hR.healOrRegister)

/-! ## Value out -/

theorem moveOut (hR : Still R) {a : AssetStore} {assetId : Word} {recipient : Address} {amount : Nat} :
    Keeps R (ConfidentialPool.moveOut D env a assetId recipient amount) := by
  have := hR.preorder
  refine .ite (hR.callOut _) (.bind .get fun _ => .bind .check fun _ => .bind (.modify fun s => ?_) fun _ => hR.callOut _)
  exact hR.release s assetId amount

theorem payout (hR : Still R) {assetId : Word} {recipient : Address} {value : Nat} :
    Keeps R (ConfidentialPool.payout D env assetId recipient value) := by
  have := hR.preorder
  refine .ite .pure (.bind .get fun _ => .bind .check fun _ => .bind .check fun _ => ?_)
  exact .bind .orThrow fun _ => .bind hR.moveOut fun _ => .pure

theorem payoutCk (hR : Still R) {assetId : Word} {recipient : Address} {value : Nat} :
    Keeps R (ConfidentialPool.payoutCk D env assetId recipient value) := by
  have := hR.preorder
  exact .bind .check fun _ => .bind hR.payout fun _ => .pure

theorem refund (hR : Still R) {assetId : Word} {recipient : Address} {value : Nat} :
    Keeps R (ConfidentialPool.refund D env assetId recipient value) := by
  have := hR.preorder
  exact .onlyIf (.bind hR.payout fun _ => .pure)

theorem creditShares (hR : Still R) {id : Word} {owner : Address} {shares : Nat} :
    Keeps R (ConfidentialPool.creditShares id owner shares) := by
  have := hR.preorder
  exact .bind .get fun _ => .bind .orThrow fun _ => .modify fun s => hR.shares s _

theorem farmSweep (hR : Still R) {rewardAsset : Word} {recipient : Address} :
    Keeps R (ConfidentialPool.farmSweep D env rewardAsset recipient) := by
  have := hR.preorder
  refine .bind .get fun _ => .bind .check fun _ => .bind .check fun _ => .bind .orThrow fun _ => ?_
  exact .bind (.modify fun s => hR.farms s s.farmRewardAsset _) fun _ => .bind hR.payout fun _ => .pure

theorem pinReward (hR : Still R) {controller : Address} {rewardAsset : Word} :
    Keeps R (ConfidentialPool.pinReward env controller rewardAsset) := by
  have := hR.preorder
  refine .bind .get fun _ => .ite (.bind .check fun _ => .bind .orThrow fun _ => .bind .check fun _ => ?_) .check
  exact .modify fun s => hR.farms s _ s.farmTreasury

/-! ## Value in -/

section In

variable (hR : Still R) (hescrow : ∀ s e, R s { s with escrow := e })
include hR hescrow

theorem moveInUnderlying {a : AssetStore} {assetId : Word} {amount : Nat} :
    Keeps R (ConfidentialPool.moveInUnderlying D env a assetId amount) := by
  have := hR.preorder
  have hadd : ∀ id n, Keeps R (addEscrow id n) := fun id n =>
    .bind .get fun _ => .bind .orThrow fun _ => .modify fun s => hescrow s _
  refine .ite (hR.callOut _) (.ite (hadd _ _) ?_)
  exact .bind (hR.callOut _) fun _ => .bind .orThrow fun _ => .bind .check fun _ => hadd _ _

theorem ingestPublic {assetId : Word} {amount : Nat} :
    Keeps R (ConfidentialPool.ingestPublic D env assetId amount) := by
  have := hR.preorder
  refine .bind .get fun _ => .bind .check fun _ => .bind ?_ fun _ => .bind (moveInUnderlying hR hescrow) fun _ => .pure
  exact .bind .check fun _ => .bind .check fun _ => .bind .check fun _ => .pure

end In

/-! ## Positions -/

theorem insertCdpPositionLeaf (hR : Still R) {leaf : Word} : Keeps R (ConfidentialPool.insertCdpPositionLeaf D leaf) := by
  have := hR.preorder
  exact .bind (.zoom fun s m => hR.positions s m s.cdpTree) fun _ =>
    .zoom fun s t => hR.positions s s.cdpPositionLeafInserted t

theorem markCdpRoot (hR : Still R) : Keeps R ConfidentialPool.markCdpRoot :=
  .zoom fun s t => hR.positions s s.cdpPositionLeafInserted t

theorem takeHarvest (hR : Still R) {m : CdpMint} {ids : List Word} : Keeps R (ConfidentialPool.takeHarvest m ids) := by
  have := hR.preorder
  refine .ite (.bind .orThrow fun _ => .bind (.zoom fun s m => hR.harvests s m) fun _ => .bind (.onlyIf ?_) fun _ => .pure) .pure
  exact .bind .get fun _ => .bind .check fun _ => .modify fun s => hR.farms s s.farmRewardAsset _

theorem cdpMints (hR : Still R) : ∀ {ms : List CdpMint} {ids : List Word}, Keeps R (ConfidentialPool.cdpMints D env ms ids)
  | [], ids => by
    have := hR.preorder
    exact .pure
  | m :: ms, ids => by
    have := hR.preorder
    refine .bind (.bind .check fun _ => .bind .check fun _ => .bind (.onlyIf hR.insertCdpPositionLeaf) fun _ => ?_) fun _ =>
      hR.cdpMints
    exact .bind hR.takeHarvest fun _ => .bind (hR.callOut _) fun _ => .pure

/-! ## Settlement -/

theorem payoutSection (hR : Still R) {pv : PublicValues} : Keeps R (ConfidentialPool.payoutSection D env pv) := by
  have := hR.preorder
  exact .bind (.forEach fun w _ => hR.payoutCk) fun _ => .forEach fun f _ => hR.payoutCk

/-! ## Whole calls -/

/-- The calls a blind relation does not see. -/
def quiet : Call → Prop
  | .registerWrapped .. | .registerWrappedAuto .. | .registerMinted .. | .createPair .. => True
  | .advanceReflectionAncestry | .drainOverflow .. | .drainOverflowRoots .. => True
  | _ => False

theorem zoomReflection (hR : Still R) {α : Type} {m : Prog ReflectionLib.Storage PoolError α} :
    Keeps R (zoom Storage.reflection (fun l s => { s with reflection := l }) m) :=
  Keeps.zoom fun s l => hR.reflection s l

theorem call_of_quiet (hR : Still R) {c : Call} (hc : quiet c) : Keeps R (c.prog D env) := by
  have := hR.preorder
  cases c with
  | registerWrapped => exact .bind (.bind .check fun _ => hR.register) fun _ => .pure
  | registerWrappedAuto => exact .bind (.bind .orThrow fun _ => .bind .check fun _ => hR.register) fun _ => .pure
  | registerMinted =>
    exact .bind (.bind .orThrow fun _ => .bind .check fun _ => .bind .check fun _ => .bind .orThrow fun _ =>
      .bind .check fun _ => hR.register) fun _ => .pure
  | createPair => exact .bind hR.ensurePair fun _ => .pure
  | advanceReflectionAncestry => exact hR.advanceReflectionAncestry
  | drainOverflow => exact .bind hR.zoomReflection fun _ => .forEach fun m _ => hR.autoRegisterFromMeta m
  | drainOverflowRoots => exact hR.zoomReflection
  | _ => exact hc.elim

theorem amountToValue (hR : Still R) {amount unitScale : Nat} : Keeps R (ConfidentialPool.amountToValue amount unitScale) := by
  have := hR.preorder
  exact .bind .check fun _ => .bind .check fun _ => .bind .check fun _ => .pure

theorem wrap (hR : Still R) (hescrow : ∀ s e, R s { s with escrow := e }) (hdeposit : ∀ id, Keeps R (registerDeposit id))
    {assetId : Word} {amount : Nat} {commit : Word} : Keeps R (ConfidentialPool.wrap D env assetId amount commit) := by
  have := hR.preorder
  refine .bind .get fun _ => .bind .check fun _ => .bind .check fun _ => .bind hR.amountToValue fun _ => ?_
  exact .bind (hdeposit _) fun _ => .bind .check fun _ => hR.moveInUnderlying hescrow

theorem shieldShares (hR : Still R) (hdeposit : ∀ id, Keeps R (registerDeposit id)) {id : Word} {shares : Nat}
    {commit : Word} : Keeps R (ConfidentialPool.shieldShares D env id shares commit) := by
  have := hR.preorder
  refine .bind .get fun _ => .bind .check fun _ => .bind .check fun _ => .bind .check fun _ => ?_
  exact .bind (.modify fun s => hR.shares s _) fun _ => .bind (hdeposit _) fun _ => .pure

theorem farmEscrow (hR : Still R) (hescrow : ∀ s e, R s { s with escrow := e }) {controller : Address}
    {rewardAsset : Word} {amount : Nat} {recipient : Address} :
    Keeps R (ConfidentialPool.farmEscrow D env controller rewardAsset amount recipient) := by
  have := hR.preorder
  refine .ite hR.farmSweep (.bind (.bind .get fun _ => .check) fun _ => .bind .check fun _ => ?_)
  refine .bind hR.pinReward fun _ => .bind (hR.ingestPublic hescrow) fun _ => .bind .get fun _ => ?_
  exact .bind .orThrow fun _ => .bind (.modify fun s => hR.farms s s.farmRewardAsset _) fun _ => .pure

theorem attestBitcoinStateProven (hR : Still R) (hhandoff : Keeps R recordHandoff)
    {r : ReflectionLib.BitcoinRelayPublicValues} : Keeps R (ConfidentialPool.attestBitcoinStateProven D env r) := by
  have := hR.preorder
  refine .bind .get fun _ => .bind hR.zoomReflection fun _ => .bind hhandoff fun _ => ?_
  exact .forEach fun m _ => hR.autoRegisterFromMeta m

/-- A call that settles no batch is not seen, unless it is the escrow, a deposit, the reserves or the succession that is
looked at. -/
theorem call (hR : Still R) (hescrow : ∀ s e, R s { s with escrow := e }) (hdeposit : ∀ id, Keeps R (registerDeposit id))
    (hpools : ∀ s p, R s { s with pools := p })
    (hlineage : ∀ s a d tip n m, R s { s with
      successor := a, handoffDigest := d, handoffTip := tip, handoffConsumedCount := n, handoffCrossOutCount := m })
    {c : Call} (hc : c.batch = none) : Keeps R (c.prog D env) := by
  have := hR.preorder
  have hset : ∀ id p, Keeps R (setPool id p) := fun _ _ => .modify fun s => hpools s _
  cases c with
  | wrap => exact hR.wrap hescrow hdeposit
  | createPairAndSettle => cases hc
  | applyPublicAddLiquidity =>
    refine .bind (.bind .check fun _ => .bind (.bind .get fun _ => .check) fun _ => .bind .check fun _ => ?_) fun _ => .pure
    refine .bind hR.ensurePair fun _ => .bind .get fun _ => .bind .orThrow fun _ => .bind .check fun _ => ?_
    refine .bind (hR.ingestPublic hescrow) fun _ => .bind (hR.ingestPublic hescrow) fun _ => .bind .get fun _ => ?_
    refine .bind .ofExcept fun _ => .bind (hset _ _) fun _ => ?_
    exact .bind hR.refund fun _ => .bind hR.refund fun _ => .bind hR.creditShares fun _ => .pure
  | applyPublicRemoveLiquidity =>
    refine .bind (.bind .check fun _ => .bind .get fun _ => .bind .check fun _ => .bind .ofExcept fun _ => ?_) fun _ => .pure
    refine .bind (.modify fun s => hR.shares s _) fun _ => .bind (hset _ _) fun _ => ?_
    exact .bind hR.payout fun _ => .bind hR.payout fun _ => .pure
  | applyPublicSwap =>
    refine .bind (.bind .check fun _ => .bind (.bind .get fun _ => .check) fun _ => .bind .get fun _ => ?_) fun _ => .pure
    refine .bind .check fun _ => .bind .check fun _ => .bind (hR.ingestPublic hescrow) fun _ => .bind .get fun _ => ?_
    exact .bind .ofExcept fun _ => .bind (hset _ _) fun _ => hR.payout
  | shieldShares => exact .bind (hR.shieldShares hdeposit) fun _ => .pure
  | farmEscrow => exact .bind (hR.farmEscrow hescrow) fun _ => .pure
  | attestBitcoinStateProven =>
    exact hR.attestBitcoinStateProven (.bind .get fun _ => .onlyIf (.modify fun s => hlineage s s.successor _ _ _ _))
  | settle => cases hc
  | createNextGen =>
    refine .bind .check fun _ => .bind .get fun _ => .bind .check fun _ => .bind (hR.callOut _) fun _ => .bind .check fun _ => ?_
    exact .modify fun s => hlineage s _ s.handoffDigest s.handoffTip s.handoffConsumedCount s.handoffCrossOutCount
  | registerWrapped => exact hR.call_of_quiet trivial
  | registerWrappedAuto => exact hR.call_of_quiet trivial
  | registerMinted => exact hR.call_of_quiet trivial
  | createPair => exact hR.call_of_quiet trivial
  | advanceReflectionAncestry => exact hR.call_of_quiet trivial
  | drainOverflow => exact hR.call_of_quiet trivial
  | drainOverflowRoots => exact hR.call_of_quiet trivial

end Still

theorem Blind.countNullifiers (hR : Blind R) {pv : PublicValues} {btcHomed : Bool} :
    Keeps R (ConfidentialPool.countNullifiers pv btcHomed) := by
  have := hR.preorder
  exact .onlyIf (.bind .get fun _ => .bind .orThrow fun _ => .modify fun s => hR.evmCount s _)


/-- A relation that sees none of the spend-once marks. -/
structure Unmarked (R : Storage → Storage → Prop) : Prop extends Blind R where
  nullifier : ∀ s m, R s { s with nullifierSpent := m }
  lock : ∀ s m, R s { s with lockSpent := m }
  position : ∀ s m, R s { s with cdpPositionSpent := m }
  burn : ∀ s m, R s { s with bridgeMinted := m }
  status : ∀ s m, R s { s with depositStatus := m }

namespace Unmarked

variable (hR : Unmarked R)
include hR

theorem registerDeposit (id : Word) : Keeps R (ConfidentialPool.registerDeposit id) := by
  have := hR.preorder
  exact .bind .get fun _ => .bind .check fun _ => .modify fun s => hR.status s _

theorem spendSection (pv : PublicValues) : Keeps R (ConfidentialPool.spendSection D pv) := by
  have := hR.preorder
  refine .bind (.forEach fun n _ => .zoom fun s m => hR.nullifier s m) fun _ => ?_
  exact .bind (.forEach fun l _ => .zoom fun s m => hR.lock s m) fun _ => .zoom fun s t => hR.lockTree s t

theorem cdpSection (pv : PublicValues) : Keeps R (ConfidentialPool.cdpSection D env pv) := by
  have := hR.preorder
  have hspend : ∀ p, Keeps R (spendCdpPosition p) := fun p => .zoom fun s m => hR.position s m
  refine .bind .get fun _ => .bind .ofExcept fun _ => .bind hR.cdpMints fun _ => .bind .check fun _ => ?_
  refine .bind (.onlyIf hR.markCdpRoot) fun _ => .bind (.forEach fun t _ => ?_) fun _ => ?_
  · exact .bind .check fun _ => .bind .check fun _ => .bind (hspend _) fun _ =>
      .bind hR.insertCdpPositionLeaf fun _ => hR.callOut _
  · refine .bind (.onlyIf hR.markCdpRoot) fun _ => .bind (.forEach fun c _ => ?_) fun _ => .forEach fun q _ => ?_
    · exact .bind .check fun _ => .bind (hspend _) fun _ => hR.callOut _
    · exact .bind .check fun _ => .bind (hspend _) fun _ => hR.callOut _

theorem deposits (pv : PublicValues) : Keeps R (forEach pv.depositsConsumed consumeDeposit) := by
  have := hR.preorder
  exact .forEach fun id _ => .bind .get fun _ => .bind .check fun _ => .modify fun s => hR.status s _

theorem mintBurns (nullifiers : List Word) : ∀ (seen : List Word) (l : List (Word × Word)),
    Keeps R (ConfidentialPool.mintBurns nullifiers seen l)
  | _, [] => by
    have := hR.preorder
    exact .pure
  | seen, (n, id) :: l => by
    have := hR.preorder
    exact .bind .check fun _ => .bind .check fun _ => .bind (.zoom fun s m => hR.burn s m) fun _ =>
      mintBurns nullifiers (seen ++ [n]) l

theorem bridgeSection (pv : PublicValues) : Keeps R (ConfidentialPool.bridgeSection pv) := by
  have := hR.preorder
  refine .bind .check fun _ => .bind .check fun _ => .bind (hR.mintBurns _ _ _) fun _ => ?_
  exact .bind .get fun _ => .check

end Unmarked

/-- A relation that sees neither the escrow, nor new deposits, nor the reserves, nor the succession. -/
structure Deaf (R : Storage → Storage → Prop) : Prop extends Blind R where
  escrow : ∀ s e, R s { s with escrow := e }
  deposit : ∀ id, Keeps R (registerDeposit id)
  pools : ∀ s p, R s { s with pools := p }
  cbtc : ∀ s m, R s { s with cbtcMinted := m }
  lineage : ∀ s a d tip n m, R s { s with
    successor := a, handoffDigest := d, handoffTip := tip, handoffConsumedCount := n, handoffCrossOutCount := m }

namespace Deaf

variable (hR : Deaf R)
include hR

theorem setPool (id : Word) (p : Pool) : Keeps R (ConfidentialPool.setPool id p) := .modify fun s => hR.pools s _

theorem updatePool (id : Word) (f : Pool → Except PoolError Pool) : Keeps R (ConfidentialPool.updatePool id f) := by
  have := hR.preorder
  exact .bind .get fun _ => .bind .ofExcept fun _ => hR.setPool id _

theorem cbtcSection (pv : PublicValues) : Keeps R (ConfidentialPool.cbtcSection D env pv) := by
  have := hR.preorder
  refine .bind .get fun _ => .bind .check fun _ => .forEach fun cm _ => ?_
  refine .bind .get fun _ => .bind .check fun _ => .bind .check fun _ => .bind .check fun _ => .bind .orThrow fun _ => ?_
  exact .bind .check fun _ => .modify fun s => hR.cbtc s _

/-- A call that settles no batch is not seen. -/
theorem call {c : Call} (hc : c.batch = none) : Keeps R (c.prog D env) :=
  hR.toStill.call hR.escrow hR.deposit hR.pools hR.lineage hc

end Deaf

/-! ## The sections of an accepted batch -/

/-- The Bitcoin-homed part of `settle` (:1850-:1913). -/
def homeSection (D : Deployment) (pv : PublicValues) (s₀ : Storage) (b : Bool) : Prog Storage PoolError Unit :=
  onlyIf (b = true) do
    ofExcept (btcHomedChecks pv s₀)
    consumeBitcoin D pv

/-- The reserve part of `settle` (:2231-:2317). -/
def reserveSection (pv : PublicValues) : Prog Storage PoolError Unit := do
  forEach pv.swaps fun w => updatePool w.poolId (settleSwap · w)
  forEach pv.liquidity fun l => updatePool l.poolId (settleLiquidity · l)

/-- The accepted sections of a batch, from `s` to `t`. -/
structure Settled (D : Deployment) (env : Env) (pv : PublicValues) (s t : Storage) (b : Bool)
    (s₁ s₂ s₃ s₄ s₅ s₆ s₇ s₈ s₉ s₁₀ : Storage) : Prop where
  checks : settleChecks D env pv s = .ok b
  home : homeSection D pv s b s = .ok () s₁
  spend : spendSection D pv s₁ = .ok () s₂
  cdp : cdpSection D env pv s₂ = .ok () s₃
  cbtc : cbtcSection D env pv s₃ = .ok () s₄
  counts : countNullifiers pv b s₄ = .ok () s₅
  deposits : forEach pv.depositsConsumed consumeDeposit s₅ = .ok () s₆
  bridge : bridgeSection pv s₆ = .ok () s₇
  leaf : leafSection D pv s₇ = .ok () s₈
  payouts : payoutSection D env pv s₈ = .ok () s₉
  crossOuts : recordCrossOuts D pv [] pv.crossOuts s₉ = .ok () s₁₀
  reserves : reserveSection pv s₁₀ = .ok () t

theorem settle_sections {pv : PublicValues} {memos : List Bytes} {s t : Storage} {u : Unit}
    (hok : settle D env pv memos s = .ok u t) :
    ∃ b s₁ s₂ s₃ s₄ s₅ s₆ s₇ s₈ s₉ s₁₀, Settled D env pv s t b s₁ s₂ s₃ s₄ s₅ s₆ s₇ s₈ s₉ s₁₀ := by
  obtain ⟨_, _, h₀, hok₀⟩ := bind_eq_ok.1 hok
  obtain ⟨rfl, rfl⟩ := get_eq_ok.1 h₀
  obtain ⟨b, _, hchecks, hok₁⟩ := bind_eq_ok.1 hok₀
  obtain ⟨hchecks, rfl⟩ := ofExcept_eq_ok.1 hchecks
  obtain ⟨_, _, h₁, hok₂⟩ := bind_eq_ok.1 hok₁
  obtain ⟨_, s₁, hroots, hok₃⟩ := bind_eq_ok.1 hok₂
  obtain ⟨-, rfl⟩ := ofExcept_eq_ok.1 hroots
  obtain ⟨_, s₂, h₂, hok₄⟩ := bind_eq_ok.1 hok₃
  obtain ⟨_, s₃, h₃, hok₅⟩ := bind_eq_ok.1 hok₄
  obtain ⟨_, s₄, h₄, hok₆⟩ := bind_eq_ok.1 hok₅
  obtain ⟨_, s₅, h₅, hok₇⟩ := bind_eq_ok.1 hok₆
  obtain ⟨_, s₆, h₆, hok₈⟩ := bind_eq_ok.1 hok₇
  obtain ⟨_, s₇, h₇, hok₉⟩ := bind_eq_ok.1 hok₈
  obtain ⟨_, s₈, h₈, hok₁₀⟩ := bind_eq_ok.1 hok₉
  obtain ⟨_, s₉, h₉, hok₁₁⟩ := bind_eq_ok.1 hok₁₀
  obtain ⟨_, s₁₀, h₁₀, hreserves⟩ := bind_eq_ok.1 hok₁₁
  exact ⟨b, s₁, s₂, s₃, s₄, s₅, s₆, s₇, s₈, s₉, s₁₀, hchecks, h₁, h₂, h₃, h₄, h₅, h₆, h₇, h₈, h₉, h₁₀, hreserves⟩

theorem Blind.homeSection (hR : Blind R) (hconsumed : ∀ s l, R s { s with consumed := l }) (pv : PublicValues)
    (s₀ : Storage) (b : Bool) : Keeps R (ConfidentialPool.homeSection D pv s₀ b) := by
  have := hR.preorder
  refine .onlyIf (.bind .ofExcept fun _ => .onlyIf ?_)
  exact .bind .check fun _ => .bind .get fun _ => .bind .orThrow fun _ => .modify fun s => hconsumed s _

theorem Blind.recordCrossOuts (hR : Blind R) (hcross : ∀ s l, R s { s with crossOuts := l }) (pv : PublicValues) :
    ∀ (seen : List Word) (l : List CrossOut), Keeps R (ConfidentialPool.recordCrossOuts D pv seen l)
  | _, [] => by
    have := hR.preorder
    exact .pure
  | seen, c :: l => by
    have := hR.preorder
    refine .bind .check fun _ => .bind .check fun _ => .bind .check fun _ => .bind .check fun _ => .bind .check fun _ => ?_
    exact .bind (.modify fun s => hcross s _) fun _ => recordCrossOuts hR hcross pv _ l

theorem Deaf.reserveSection (hR : Deaf R) (pv : PublicValues) : Keeps R (ConfidentialPool.reserveSection pv) := by
  have := hR.preorder
  exact .bind (.forEach fun w _ => hR.updatePool _ _) fun _ => .forEach fun l _ => hR.updatePool _ _

/-! ## Deployment -/

/-- What a constructor leaves differs from the blank storage only in the registry and the like. -/
theorem Still.construct (hR : Still R) (g : Genesis) : Keeps R (ConfidentialPool.construct D env g) := by
  have := hR.preorder
  have hgenesis : ∀ a c, Keeps R (registerGenesis D env a c) := fun a c =>
    .bind hR.canonicalToken fun _ => .bind hR.register fun _ => .pure
  refine .bind (.onlyIf (.bind hR.register fun _ => .pure)) fun _ => .bind (.onlyIf (hgenesis _ _)) fun _ => ?_
  exact .onlyIf (.bind (hgenesis _ _) fun _ => hgenesis _ _)

theorem Deployed.blind (hR : Blind R) {s : Storage} (hs : Deployed D s) :
    ∃ digest last, R (Storage.blank D.keccak digest last) s := by
  obtain ⟨env, g, digest, last, hok⟩ := hs
  exact ⟨digest, last, hR.construct g hok⟩

end ConfidentialPool

end Tacit
