import Tacit.Lib.Traceless
import Tacit.Reflection.Farm.Progress
/-!
# Folds the scan skips (lib.rs:4995-6666, reflect.rs:2271-2569)

The main loop sees no more of a fold than its `Err`, and goes on from the state the fold left. So a fold checks all it can refuse
before it writes. Two do not: a swap forms the settler's tip note after its other notes are in, and the farm registers its rewards
after its treasury.
-/
namespace Tacit

open Prog

section Folds

variable {C : Crypto} {s : ScanReflection}

/-! ## Writes -/

theorem infallible_setPool (poolId : Word) (p : PoolReserveState) : Infallible (setPool poolId p) :=
  Infallible.get.bind fun _ => Infallible.orPanic.bind fun _ => .modify

theorem infallible_insertPool (poolId : Word) (p : PoolReserveState) : Infallible (insertPool poolId p) :=
  Infallible.get.bind fun _ => Infallible.orPanic.bind fun _ => .modify

theorem infallible_setFarm (farmId : Word) (st : FarmRewardState) : Infallible (setFarm farmId st) :=
  Infallible.get.bind fun _ => Infallible.orPanic.bind fun _ => .modify

theorem infallible_liveInsert (outpoint : Word) (n : LiveNote) : Infallible (liveInsert outpoint n) :=
  Infallible.get.bind fun _ => Infallible.orPanic.bind fun _ => .modify

theorem commitmentHash_of_leaf {asset auth x : Word} {c : Bytes} (h : reflectedNoteLeaf C asset c auth = some x) :
    ∃ ch, commitmentHashCompressed C c = some ch := by
  obtain ⟨p, hp, -⟩ := Option.map_eq_some_iff.1 h
  exact ⟨_, congrArg (Option.map _) hp⟩

theorem traceless_onboardNote {asset : Word} {c : Bytes} {auth outpoint : Word} {path : List Word} {e e' : String} :
    Traceless (onboardNote C asset c auth outpoint path e e') s := by
  simp only [Traceless, onboardNote, wp_bind, wp_orThrow, implies_true, true_and]
  exact fun _ _ _ _ => Infallible.expect.traceless

/-- The commitment of a note is a point. -/
theorem infallible_onboardNote {asset : Word} {c : Bytes} (hc : C.decompress c ≠ none) {auth outpoint : Word} {path : List Word}
    {e e' : String} : Infallible (onboardNote C asset c auth outpoint path e e') := by
  obtain ⟨p, hp⟩ := Option.ne_none_iff_exists'.1 hc
  intro s
  simp only [onboardNote, reflectedNoteLeaf, commitmentHashCompressed, hp, Option.map_some, wp_bind, wp_orThrow, reduceCtorEq,
    false_imp_iff, true_and]
  exact fun _ _ _ _ => Infallible.expect.wp fun _ _ => trivial

theorem traceless_onboardAmmRefundNote {asset : Word} {value : U 64} {blinding auth outpoint : Word} {path : List Word} :
    Traceless (onboardAmmRefundNote C asset value blinding auth outpoint path) s := by
  simp only [Traceless, onboardAmmRefundNote, wp_bind, wp_check, implies_true, true_and]
  exact fun _ => traceless_onboardNote

theorem traceless_onboardPair {a b : PairedNote} {pathA pathB : List Word} : Traceless (onboardPair C a b pathA pathB) s := by
  simp only [Traceless, onboardPair, wp_bind, wp_orThrow, implies_true, true_and]
  intro _ _ _ _ _ _ _ _
  exact Infallible.expect.wp fun _ _ => Infallible.expect.wp fun _ _ => (infallible_liveInsert _ _).wp fun _ _ =>
    (infallible_liveInsert _ _).wp fun _ _ => trivial

/-! ## Swaps -/

theorem infallible_swapVarNotes {e : SwapVarEnvelope} {q : PoolSides} {ch : Word} {receipt change : NoteDest} {path : List Word} :
    Infallible (swapVarNotes C e q ch receipt change path) := by
  unfold swapVarNotes
  split
  · next x hx =>
    obtain ⟨cCh, hcCh⟩ := commitmentHash_of_leaf hx
    rw [hcCh]
    exact Infallible.pure.bind fun _ => Infallible.expect.bind fun _ => (infallible_liveInsert _ _).bind fun _ =>
      infallible_liveInsert _ _
  · exact infallible_liveInsert _ _

/-- The settler's tip commits to a point, if there is a tip: `tip·H + r·G` is not infinity. -/
def TipFormed (C : Crypto) (e : SwapVarEnvelope) : Prop :=
  0 < e.tipAmount.val → C.decompress (C.pedersenCommitCompressed e.tipAmount.val (swapVarTipBlinding C e.rReceipt e.tipAmount)) ≠ none

theorem infallible_swapVarTip {e : SwapVarEnvelope} (htip : TipFormed C e) {q : PoolSides} {tip : NoteDest} {path : List Word} :
    Infallible (swapVarTip C e q tip path) :=
  Infallible.ite (fun hpos => infallible_onboardNote (htip hpos)) fun _ => .pure

theorem traceless_foldSwapVar {pool : PoolReserveState} {e : SwapVarEnvelope} (htip : TipFormed C e) {input : OutPoint}
    {inputAsset : Word} {receipt change refund tip : NoteDest} {receiptPath changePath tipPath : List Word} {height : U 64} :
    Traceless (foldSwapVar C pool e input inputAsset receipt change refund tip receiptPath changePath tipPath height) s := by
  have hrefund : Traceless (onboardBtcRefund C inputAsset e.cIn refund.auth refund.outpoint receiptPath >>= fun _ =>
      (pure pool : Fold PoolReserveState)) s := traceless_onboardNote.bind fun _ => .pure
  simp only [Traceless, foldSwapVar, swapVarSettle, wp_bind, wp_ofExcept, wp_ite, wp_orThrow, wp_orPanic, wp_check, implies_true,
    true_and]
  refine fun _ _ => ⟨fun _ => wp_bind.1 hrefund, fun _ r _ => ⟨fun _ => wp_bind.1 hrefund, fun _ => ?_⟩⟩
  intro _ _ _ _ _ _ _ _ _
  exact Infallible.expect.wp fun _ _ => infallible_swapVarNotes.wp fun _ _ => (infallible_swapVarTip htip).wp fun _ _ => trivial

theorem traceless_foldSwapRoute {e : SwapRouteEnvelope} {input : OutPoint} {inputAsset : Word} {receipt refund : NoteDest}
    {receiptPath : List Word} {height : U 64} :
    Traceless (foldSwapRoute C e input inputAsset receipt refund receiptPath height) s := by
  simp only [Traceless, foldSwapRoute, wp_bind, wp_get, wp_ofExcept, wp_ite, wp_orThrow, wp_check, implies_true, true_and]
  refine fun _ _ _ _ _ _ _ _ => ⟨fun _ => traceless_onboardNote, fun _ c _ => ⟨fun _ => traceless_onboardNote, fun _ _ => ?_⟩⟩
  exact traceless_onboardNote.wp fun _ _ => (Infallible.forEach fun x => infallible_setPool _ _).wp fun _ _ => trivial

/-! ## Liquidity -/

theorem traceless_foldLpAdd {e : LpAddEnvelope} {poolId : Word} {a b : LpSide} {backed : Bool} {height : U 64}
    {pathA pathB : List Word} : Traceless (foldLpAdd C e poolId a b backed height pathA pathB) s := by
  have hrefund : Traceless (lpRefund C a b pathA pathB) s := traceless_onboardPair
  simp only [Traceless, foldLpAdd, wp_bind, wp_get, wp_ite, wp_orThrow, wp_orPanic, wp_check, wp_throw, implies_true, true_and,
    and_true]
  refine fun _ _ _ => ⟨fun _ _ => ⟨fun _ => hrefund, fun _ => (infallible_insertPool _ _).traceless⟩, fun _ _ pool _ _ _ => ?_⟩
  intro pool' _ minted _
  exact ⟨fun _ => hrefund, fun _ _ _ _ _ _ _ => (infallible_setPool _ _).traceless⟩

theorem traceless_foldLpRemove {poolId : Word} {shareAmount deltaA deltaB : U 64} {recvASecp : Bytes} {rRecvA : Word}
    {recvBSecp : Bytes} {rRecvB : Word} {ops : List OutPoint} {pts : List Point} {sig : Bytes} {recvA recvB refund : NoteDest}
    {pathA pathB refundPath : List Word} : Traceless (foldLpRemove C poolId shareAmount deltaA deltaB recvASecp rRecvA recvBSecp
      rRecvB ops pts sig recvA recvB refund pathA pathB refundPath) s := by
  simp only [Traceless, foldLpRemove, wp_bind, wp_get, wp_ite, wp_orThrow, wp_orPanic, wp_check, implies_true, true_and]
  intro pool _ _ _ pool' _ _ _ _
  exact ⟨fun _ => traceless_onboardNote, fun _ => traceless_onboardPair.wp fun _ _ => (infallible_setPool _ _).wp fun _ _ => trivial⟩

theorem traceless_foldProtocolFeeClaim {e : ProtocolFeeClaimEnvelope} {claim : NoteDest} {path : List Word} :
    Traceless (foldProtocolFeeClaim C e claim path) s := by
  simp only [Traceless, foldProtocolFeeClaim, wp_bind, wp_get, wp_orThrow, wp_orPanic, wp_check, implies_true, true_and]
  intro _ _ _ _ _ _ _ _ _ _ _ _ _ _
  exact traceless_onboardNote.wp fun _ _ => (infallible_setPool _ _).wp fun _ _ => trivial

/-! ## Farms -/

theorem traceless_foldFarmInit {e : FarmInitEnvelope} {farmId : Word} {input : OutPoint} {cIn : Bytes} {backed : Bool}
    {outpoint : Word} {path : List Word} : Traceless (foldFarmInit C e farmId input cIn backed outpoint path) s := by
  simp only [Traceless, foldFarmInit, wp_bind, wp_get, wp_ite, wp_check, wp_pure, implies_true, true_and]
  refine fun _ _ _ => ⟨fun _ => ?_, fun _ => (infallible_insertPool _ _).traceless⟩
  exact traceless_onboardAmmRefundNote.wp fun _ _ => trivial

theorem traceless_foldHarvest {farmId : Word} {amount : U 64} {r outpoint : Word} {path : List Word} {spk : Bytes} :
    Traceless (foldHarvest C farmId amount r outpoint path spk) s := by
  simp only [Traceless, foldHarvest, wp_bind, wp_get, wp_orThrow, wp_check, implies_true, true_and]
  intro _ _ _ _ _ _
  exact traceless_onboardNote.wp fun _ _ => (infallible_setPool _ _).wp fun _ _ => trivial

theorem traceless_foldFarmRefund {e : FarmRefundEnvelope} {outpoint : Word} {path : List Word} {spk : Bytes} :
    Traceless (foldFarmRefund C e outpoint path spk) s := by
  simp only [Traceless, foldFarmRefund, wp_bind, wp_get, wp_orThrow, wp_check, implies_true, true_and]
  exact fun _ _ _ _ _ => traceless_foldHarvest

theorem traceless_foldLpBond {farmId : Word} {shares : U 64} {owner nonce : Word} {path : List Word}
    {blinding xonly outpoint : Word} : Traceless (foldLpBond C farmId shares owner nonce path blinding xonly outpoint) s := by
  simp only [Traceless, foldLpBond, wp_bind, wp_get, wp_orThrow, wp_check, implies_true, true_and]
  intro st _ _
  split
  · exact wp_bind.2 (traceless_onboardAmmRefundNote.wp fun _ _ => trivial)
  · rw [wp_ite]
    refine ⟨fun _ => wp_bind.2 (traceless_onboardAmmRefundNote.wp fun _ _ => trivial), fun _ => ?_⟩
    exact (Infallible.expect.bind fun _ => Infallible.modify.bind fun _ => (infallible_setFarm _ _).bind fun _ => .pure).traceless

theorem traceless_foldLpHarvest {e : LpHarvestEnvelope} {i : Nat} {path : List Word} {spk : Bytes} :
    Traceless (foldLpHarvest C e i path spk) s := by
  simp only [Traceless, foldLpHarvest, wp_bind, wp_get, wp_orThrow, wp_check, wp_modify, implies_true, true_and]
  exact fun _ _ _ _ _ _ _ _ => (infallible_setFarm _ _).wp fun _ _ => trivial

/-- The shares and the debt that an unbond retires are checked before its note is onboarded. -/
theorem traceless_foldLpUnbond {e : LpUnbondEnvelope} {i : Nat} {path : List Word} {w : SpentInsert} {outpoint : Word}
    {returnPath : List Word} {spk : Bytes} : Traceless (foldLpUnbond C e i path w outpoint returnPath spk) s := by
  simp only [Traceless, foldLpUnbond, receiptSpendRoot, wp_bind, wp_get, wp_orThrow, wp_check, wp_modify, implies_true, true_and]
  intro st _ entry _ _ _ root _ hshares auth _
  have hunbond (h : U 64) : st.unbond e.shares entry h ≠ none := by
    simp only [not_or, not_le, not_lt] at hshares
    exact FarmRewardState.unbond_ne_none hshares.1 hshares.2.1 hshares.2.2.2
  refine traceless_onboardNote.wp fun _ _ => ⟨fun hnone => absurd hnone (hunbond _), fun _ _ => ?_⟩
  exact (infallible_setFarm _ _).wp fun _ _ => trivial

/-! ## Cross-lane folds and locks -/

theorem traceless_foldCrossout {asset claimId cx cy root outpoint auth : Word} {w : CrossoutWitness} :
    Traceless (foldCrossout C asset claimId cx cy root outpoint auth w) s := by
  have hmint : Infallible (mintCrossout C asset claimId cx cy outpoint auth w) :=
    Infallible.get.bind fun _ => Infallible.ite (fun _ => .assert) fun _ =>
      Infallible.orPanic.bind fun _ => Infallible.expect.bind fun _ => .modify
  simp only [Traceless, foldCrossout, wp_bind, wp_orPanic, wp_check, wp_ite, wp_pure, implies_true, true_and]
  exact fun _ _ _ _ _ _ => hmint.traceless

theorem traceless_foldEthMessage {msgId record root : Word} {w : EthMsgWitness} :
    Traceless (foldEthMessage C msgId record root w) s := by
  simp only [Traceless, foldEthMessage, wp_bind, wp_get, wp_check, wp_ite, implies_true, true_and]
  refine fun _ _ => ⟨fun _ => Infallible.assert.traceless, fun _ => ?_⟩
  exact Infallible.orPanic.wp fun _ _ => Infallible.modify.wp fun _ _ => trivial

theorem traceless_foldCbtcLock {asset cx cy : Word} {tx : Tx} {vout : U 32} : Traceless (foldCbtcLock C asset cx cy tx vout) s := by
  simp only [Traceless, foldCbtcLock, wp_bind, wp_get, wp_orThrow, wp_check, wp_modify, wp_pure, implies_true, true_and]

theorem traceless_foldCbtcRedeem {lock : OutPoint} {v : U 64} {inputs ops : List OutPoint} {pts : List Point} {sig : Bytes} :
    Traceless (foldCbtcRedeem C lock v inputs ops pts sig) s := by
  simp only [Traceless, foldCbtcRedeem, wp_bind, wp_get, wp_orThrow, wp_check, wp_modify, wp_pure, implies_true, true_and]

end Folds

/-! ## The two pairs of the main loop -/

/-- The farm's treasury, then its rewards, where the guest has checked the window (reflect.rs:2322-2371). -/
def farmInitPair (C : Crypto) (e : FarmInitEnvelope) (farmId : Word) (input : OutPoint) (cIn : Bytes) (outpoint : Word)
    (path : List Word) : Fold Unit :=
  if farmWindowOk e then do
    if ← foldFarmInit C e farmId input cIn true outpoint path then
      foldFarmInitRewards C farmId e.rewardPerBlock e.launcherPubkey e.poolId (U.wrap 64 e.startHeight.val)
        (U.wrap 64 e.endHeight.val) e.rewardTotal
    else pure ()
  else pure ()

section Pairs

variable {C : Crypto} {G : BatchCrypto} {s t : ScanReflection}

theorem foldFarmInit_new {e : FarmInitEnvelope} {f : Word} {input : OutPoint} {cIn : Bytes} {backed : Bool} {outpoint : Word}
    {path : List Word} : wp True (foldFarmInit C e f input cIn backed outpoint path) s (fun _ t => t = s) fun b t => b = true →
      s.pools.get f = none ∧ t.farmRewards = s.farmRewards := by
  simp only [foldFarmInit, wp_bind, wp_get, wp_ite, wp_check, wp_pure, implies_true, true_and]
  refine fun _ _ _ => ⟨fun _ => ?_, fun _ => wp_insertPool fun hnone _ => ⟨hnone, rfl⟩⟩
  exact traceless_onboardAmmRefundNote.wp fun _ _ h => (Bool.false_ne_true h).elim

/-- The rewards of a farm whose treasury is new are new as well. -/
theorem traceless_farmInitPair {e : FarmInitEnvelope} {f : Word} (hs : s.farmRewards.get f ≠ none → s.pools.get f ≠ none)
    {input : OutPoint} {cIn : Bytes} {outpoint : Word} {path : List Word} : Traceless (farmInitPair C e f input cIn outpoint path) s := by
  unfold Traceless farmInitPair
  rw [wp_ite]
  refine ⟨fun hw => ?_, fun _ => trivial⟩
  rw [wp_bind]
  refine wp_mono foldFarmInit_new id (fun _ _ h => h) fun b t hnew => ?_
  rw [wp_ite]
  refine ⟨fun hb => ?_, fun _ => trivial⟩
  obtain ⟨hpool, hrewards⟩ := hnew hb
  refine foldFarmInitRewards_moves hw (Q := fun _ => True) (fun hknown => ?_) fun _ _ _ _ _ => trivial
  rw [hrewards] at hknown
  exact absurd hpool (hs hknown)

/-- A harvest that is not authorized, or not paid, is not there. -/
theorem scanLpHarvest_traceless {tx : Tx} {w : TxWitness} {e : LpHarvestEnvelope} (hpays : harvestPays G tx w e s = false) :
    wp True (scanLpHarvest G tx w e) s (fun _ _ => True) fun _ t => t = s := by
  unfold scanLpHarvest
  simp only [wp_bind, wp_get, succeeds, wp_attempt]
  rw [wp]
  cases hauth : foldLpHarvest G.toCrypto e w.oldIndex w.oldPath (tx.outputScriptpubkey 1) s with
  | panic => trivial
  | err err u => exact traceless_foldLpHarvest.eq hauth
  | ok a u =>
    obtain ⟨st, st', entry, stamp, r, hst, rfl, hentry, hv, hu⟩ := foldLpHarvest_eq_ok hauth
    simp only [wp_pure, if_true, wp_bind, wp_attempt]
    rw [wp]
    cases hpay : foldHarvest G.toCrypto e.farmId e.rewardAmount e.rewardR (outpointKey G.toKeccak (tx.txid, 1)) (w.path 0)
        (tx.outputScriptpubkey 1) u with
    | panic => trivial
    | err err v =>
      obtain rfl := traceless_foldHarvest.eq hpay
      simp only [Bool.false_eq_true, if_false]
      exact undoHarvest_restores hst hu
    | ok b v =>
      have hpaid : harvestPays G tx w e s = true := by simp [harvestPays, hauth, hpay]
      cases hpaid.symm.trans hpays

end Pairs

/-! ## Every skipped fold -/

/-- A fold whose `Err` the main loop swallows, with its arguments. -/
inductive SkippedFold
  | swapVar (pool : PoolReserveState) (e : SwapVarEnvelope) (input : OutPoint) (inputAsset : Word)
      (receipt change refund tip : NoteDest) (receiptPath changePath tipPath : List Word) (height : U 64)
  | swapRoute (e : SwapRouteEnvelope) (input : OutPoint) (inputAsset : Word) (receipt refund : NoteDest)
      (receiptPath : List Word) (height : U 64)
  | lpAdd (e : LpAddEnvelope) (poolId : Word) (a b : LpSide) (inputsC0Backed : Bool) (height : U 64)
      (refundAPath refundBPath : List Word)
  | lpRemove (poolId : Word) (shareAmount deltaA deltaB : U 64) (recvASecp : Bytes) (rRecvA : Word) (recvBSecp : Bytes)
      (rRecvB : Word) (lpOutpoints : List OutPoint) (lpCommitments : List Point) (kernelSig : Bytes)
      (recvA recvB refund : NoteDest) (recvAPath recvBPath refundPath : List Word)
  | protocolFeeClaim (e : ProtocolFeeClaimEnvelope) (claim : NoteDest) (claimPath : List Word)
  | farmInit (e : FarmInitEnvelope) (farmId : Word) (input : OutPoint) (launcherCIn : Bytes) (refundOutpoint : Word)
      (refundPath : List Word)
  | farmRefund (e : FarmRefundEnvelope) (refundOutpoint : Word) (refundPath : List Word) (destSpk : Bytes)
  | lpBond (farmId : Word) (shares : U 64) (owner nonce : Word) (receiptPath : List Word)
      (refundBlinding refundDestXonly refundOutpoint : Word)
  | lpHarvest (e : LpHarvestEnvelope) (oldIndex : Nat) (oldPath : List Word) (destSpk : Bytes)
  | harvest (farmId : Word) (rewardAmount : U 64) (rewardR rewardOutpoint : Word) (rewardPath : List Word) (destSpk : Bytes)
  | lpUnbond (e : LpUnbondEnvelope) (oldIndex : Nat) (oldPath : List Word) (w : SpentInsert) (lpReturnOutpoint : Word)
      (lpReturnPath : List Word) (destSpk : Bytes)
  | crossout (asset claimId cx cy crossoutSetRoot outpoint destAuthKey : Word) (w : CrossoutWitness)
  | ethMessage (msgId record msgSetRoot : Word) (w : EthMsgWitness)
  | cbtcLock (asset cx cy : Word) (tx : Tx) (lockVout : U 32)
  | cbtcRedeem (lock : OutPoint) (vBtc : U 64) (txInputs inputOutpoints : List OutPoint) (inputCommitments : List Point)
      (kernelSig : Bytes)

namespace SkippedFold

/-- The fold, its result dropped. -/
def run (C : Crypto) : SkippedFold → Fold Unit
  | swapVar pool e input inputAsset receipt change refund tip receiptPath changePath tipPath height => do
    let _ ← foldSwapVar C pool e input inputAsset receipt change refund tip receiptPath changePath tipPath height
  | swapRoute e input inputAsset receipt refund receiptPath height =>
    foldSwapRoute C e input inputAsset receipt refund receiptPath height
  | lpAdd e poolId a b backed height pathA pathB => foldLpAdd C e poolId a b backed height pathA pathB
  | lpRemove poolId shareAmount deltaA deltaB recvASecp rRecvA recvBSecp rRecvB ops pts sig recvA recvB refund pathA pathB path =>
    foldLpRemove C poolId shareAmount deltaA deltaB recvASecp rRecvA recvBSecp rRecvB ops pts sig recvA recvB refund pathA pathB
      path
  | protocolFeeClaim e claim path => foldProtocolFeeClaim C e claim path
  | farmInit e farmId input cIn outpoint path => farmInitPair C e farmId input cIn outpoint path
  | farmRefund e outpoint path spk => foldFarmRefund C e outpoint path spk
  | lpBond farmId shares owner nonce path blinding xonly outpoint => do
    let _ ← foldLpBond C farmId shares owner nonce path blinding xonly outpoint
  | lpHarvest e i path spk => foldLpHarvest C e i path spk
  | harvest farmId amount r outpoint path spk => foldHarvest C farmId amount r outpoint path spk
  | lpUnbond e i path w outpoint returnPath spk => do
    let _ ← foldLpUnbond C e i path w outpoint returnPath spk
  | crossout asset claimId cx cy root outpoint auth w => foldCrossout C asset claimId cx cy root outpoint auth w
  | ethMessage msgId record root w => foldEthMessage C msgId record root w
  | cbtcLock asset cx cy tx vout => do
    let _ ← foldCbtcLock C asset cx cy tx vout
  | cbtcRedeem lock v inputs ops pts sig => do
    let _ ← foldCbtcRedeem C lock v inputs ops pts sig

/-- What the two folds that write before their last check rely on. -/
def Regular (C : Crypto) (s : ScanReflection) : SkippedFold → Prop
  | swapVar _ e .. => TipFormed C e
  | farmInit _ farmId .. => s.farmRewards.get farmId ≠ none → s.pools.get farmId ≠ none
  | _ => True

variable {C : Crypto} {s : ScanReflection}

theorem traceless {f : SkippedFold} (hf : f.Regular C s) : Traceless (f.run C) s := by
  cases f with
  | swapVar => exact (traceless_foldSwapVar hf).bind fun _ => .pure
  | swapRoute => exact traceless_foldSwapRoute
  | lpAdd => exact traceless_foldLpAdd
  | lpRemove => exact traceless_foldLpRemove
  | protocolFeeClaim => exact traceless_foldProtocolFeeClaim
  | farmInit => exact traceless_farmInitPair hf
  | farmRefund => exact traceless_foldFarmRefund
  | lpBond => exact traceless_foldLpBond.bind fun _ => .pure
  | lpHarvest => exact traceless_foldLpHarvest
  | harvest => exact traceless_foldHarvest
  | lpUnbond => exact traceless_foldLpUnbond.bind fun _ => .pure
  | crossout => exact traceless_foldCrossout
  | ethMessage => exact traceless_foldEthMessage
  | cbtcLock => exact traceless_foldCbtcLock.bind fun _ => .pure
  | cbtcRedeem => exact traceless_foldCbtcRedeem.bind fun _ => .pure

end SkippedFold

/-- A skipped fold leaves the whole state as it was, and so does a harvest whose authorization or payment fails. -/
theorem skipped_folds_leave_no_trace {G : BatchCrypto} {s t : ScanReflection} :
    (∀ (f : SkippedFold) (e : String), f.Regular G.toCrypto s → f.run G.toCrypto s = .err e t → t = s) ∧
    ∀ tx w e, harvestPays G tx w e s = false → scanLpHarvest G tx w e s = .ok () t → t = s :=
  ⟨fun _ _ hf herr => (SkippedFold.traceless hf).eq herr, fun _ _ _ hpays hrun =>
    wp_of_ok (E := fun _ _ => True) (Q := fun _ t => t = s) (scanLpHarvest_traceless hpays) hrun⟩

/-! ## Folds that stop half-way -/

section Torn

variable (K : Keccak)

/-- Open commitments, but the commitment to 7 is infinity. -/
def offCrypto : BatchCrypto := { clearCrypto K with
  pedersenCommitCompressed := fun v r => if v = 7 then List.replicate 33 0 else clearCompress (clearPoint v r) }

def tippedSwap : SwapVarEnvelope where
  poolId := 0
  direction := 0
  deltaIn := 1000
  deltaInMin := 0
  deltaInMax := 0
  minOut := 0
  tipAmount := 7
  tipAsset := 0
  expiryHeight := 1
  traderPubkey := []
  cIn := clearCompress (clearPoint 1007 0)
  cChangeOrSentinel := List.replicate 33 0
  rReceipt := 0
  kernelSig := validSig
  intentSig := validSig
  rangeProof := []

def evenPool : PoolReserveState where
  assetA := wordOfNat 1
  assetB := wordOfNat 2
  reserveA := 1000
  reserveB := 1000
  totalShares := 1000
  c0Backed := true
  feeBps := 0
  capabilityFlags := 0
  protocolFeeBps := 0
  kLast := 0
  protocolFeeAccrued := 0

def p2trDest : NoteDest := ⟨0, secpG.x, some ([0x51, 0x20] ++ secpG.x.bytes)⟩

theorem tippedSwap_authorized : swapVarAuthorized (offCrypto K).toCrypto tippedSwap (0, 0) p2trDest p2trDest p2trDest = .ok () := by
  have h : secpG.x ≠ 0 := by decide
  simp [swapVarAuthorized, offCrypto, clearCrypto, tippedSwap, isSentinel, p2trDest, need, refuse, h]

theorem tippedSwap_quote : swapVarQuote (offCrypto K).toCrypto evenPool tippedSwap (0, 0) (wordOfNat 1) =
    .ok (⟨wordOfNat 1, wordOfNat 2, 1000, 1000⟩, 500) := by
  have hker : swapVarKernelVerify (offCrypto K).toCrypto (wordOfNat 1) (0, 0) tippedSwap.cIn tippedSwap.cChangeOrSentinel 1007
      tippedSwap.kernelSig = true := by
    simp [swapVarKernelVerify, offCrypto, clearCrypto, tippedSwap, isSentinel, clearBalances]
  simp only [swapVarQuote, except_bind_eq_ok, refuse_eq_ok, need_eq_ok]
  refine ⟨(), by decide, ⟨wordOfNat 1, wordOfNat 2, 1000, 1000⟩, rfl, (), by simp, 1007, by decide, (), ?_, (), ?_, (), ?_, 500,
    by decide, rfl⟩
  · simp [hker]
  · simp [swapVarChangeOk, tippedSwap, isSentinel]
  · decide

theorem tippedSwap_stops : ∃ path t, foldSwapVar (offCrypto K).toCrypto evenPool tippedSwap (0, 0) (wordOfNat 1) p2trDest p2trDest
      p2trDest p2trDest path [] [] 0 (ScanReflection.genesis K) = .err "swap_var fold: tip not a curve point" t ∧
      t.noteCount = 1 := by
  obtain ⟨path, root, hroot⟩ := (noteTree_empty (K := K)).exists_append (by decide)
    (btcNoteLeaf K (wordOfNat 2) (clearPoint 500 0).x (clearPoint 500 0).y secpG.x)
  have hreceipt : clearDecompress ((offCrypto K).pedersenCommitCompressed 500 0) = some (clearPoint 500 0) :=
    clearDecompress_compress (clearPoint 500 0)
  have hleaf : reflectedNoteLeaf (offCrypto K).toCrypto (wordOfNat 2) ((offCrypto K).pedersenCommitCompressed 500 0) secpG.x =
      some (btcNoteLeaf K (wordOfNat 2) (clearPoint 500 0).x (clearPoint 500 0).y secpG.x) := congrArg (Option.map _) hreceipt
  have hhash : commitmentHashCompressed (offCrypto K).toCrypto ((offCrypto K).pedersenCommitCompressed 500 0) =
      some (commitmentHash K (clearPoint 500 0).x (clearPoint 500 0).y) := congrArg (Option.map _) hreceipt
  let u : ScanReflection := { ScanReflection.genesis K with poolRoot := root, noteCount := 1 }
  let n : LiveNote := ⟨commitmentHash K (clearPoint 500 0).x (clearPoint 500 0).y, wordOfNat 2, secpG.x, false⟩
  refine ⟨path, { u with live := u.live.set 0 n }, ?_, rfl⟩
  have hnotes : swapVarNotes (offCrypto K).toCrypto tippedSwap ⟨wordOfNat 1, wordOfNat 2, 1000, 1000⟩ n.commitmentHash p2trDest
      p2trDest [] u = .ok () { u with live := u.live.set 0 n } := liveInsert_eq_ok.2 ⟨rfl, rfl⟩
  have hin : U.checkedAdd (1000 : U 64) tippedSwap.deltaIn = some 2000 := by decide
  have hout : U.checkedSub (1000 : U 64) 500 = some 500 := by decide
  refine (bind_of_ok (a := ()) (ofExcept_eq_ok.2 ⟨tippedSwap_authorized K, rfl⟩)).trans ?_
  rw [if_neg (by decide)]
  refine (bind_of_ok (ofExcept_eq_ok.2 ⟨tippedSwap_quote K, rfl⟩)).trans ?_
  dsimp only
  rw [if_neg (by decide)]
  refine (bind_of_ok (orThrow_eq_ok.2 ⟨hin, rfl⟩)).trans ?_
  refine (bind_of_ok (orPanic_eq_ok.2 ⟨hout, rfl⟩)).trans ?_
  refine (bind_of_ok (a := ()) (check_eq_ok.2 ⟨by decide, rfl⟩)).trans ?_
  refine (bind_of_ok (orThrow_eq_ok.2 ⟨hleaf, rfl⟩)).trans ?_
  refine (bind_of_ok (orThrow_eq_ok.2 ⟨hhash, rfl⟩)).trans ?_
  refine (bind_of_ok (a := ()) (expect_eq_ok.2 (foldNoteAppend_eq_ok.2 ⟨root, hroot, rfl⟩))).trans ?_
  exact (bind_of_ok hnotes).trans rfl

/-- A registered farm without its treasury. -/
def untreasured : ScanReflection := { ScanReflection.genesis K with
  farmRewards := SortedMap.empty.set (longFarmId K) (longFarmRewards K) }

theorem untreasured_farmInit : ∃ t, farmInitPair (clearCrypto K).toCrypto longFarm (longFarmId K) (wordOfNat 3, 0)
      (clearCompress (clearPoint (2 ^ 62) 0)) 0 [] (untreasured K) = .err "farm reward state already registered" t ∧
    t.pools.get (longFarmId K) ≠ none := by
  have hker : swapVarKernelVerify (clearCrypto K).toCrypto longFarm.rewardAsset (wordOfNat 3, 0)
      (clearCompress (clearPoint (2 ^ 62) 0)) longFarm.cChangeOrSentinel longFarm.rewardTotal longFarm.kernelSig = true := by
    simp [swapVarKernelVerify, clearCrypto, longFarm, isSentinel, clearBalances]
  refine ⟨{ untreasured K with pools := (untreasured K).pools.set (longFarmId K) longFarm.treasury }, ?_, ?_⟩
  · rw [farmInitPair, if_pos (by decide)]
    refine (bind_of_ok (foldFarmInit_ok (by decide) rfl hker rfl rfl)).trans ?_
    have hknown : (untreasured K).farmRewards.get (longFarmId K) = some (longFarmRewards K) := SortedMap.get_set_self _ _ _
    rw [if_pos rfl, foldFarmInitRewards]
    refine (bind_of_ok (get_eq_ok.2 ⟨rfl, rfl⟩)).trans ?_
    rw [check, if_pos (by rw [hknown]; rfl)]
    rfl
  · simp

end Torn

/-- A farm registered without a treasury gets one from an init that is then refused; a swap whose tip is infinity has its receipt in
the note tree. -/
theorem skipped_folds_leave_traces :
    (∃ f t, SkippedFold.run (clearCrypto codeKeccak).toCrypto f (untreasured codeKeccak) =
      .err "farm reward state already registered" t ∧ t ≠ untreasured codeKeccak) ∧
    ∃ f t, SkippedFold.run (offCrypto codeKeccak).toCrypto f (ScanReflection.genesis codeKeccak) =
      .err "swap_var fold: tip not a curve point" t ∧ t ≠ ScanReflection.genesis codeKeccak := by
  obtain ⟨t, ht, hpool⟩ := untreasured_farmInit codeKeccak
  obtain ⟨path, u, hu, hcount⟩ := tippedSwap_stops codeKeccak
  refine ⟨⟨.farmInit longFarm _ _ _ _ _, t, ht, ?_⟩,
    .swapVar evenPool tippedSwap (0, 0) (wordOfNat 1) p2trDest p2trDest p2trDest p2trDest path [] [] 0, u, bind_eq_err.2 (.inl hu), ?_⟩
  · rintro rfl
    exact hpool rfl
  · rintro rfl
    cases hcount

def unfarmedHarvest : LpHarvestEnvelope where
  farmId := 0
  rewardAmount := 1
  rewardR := 0
  ownerCommit := 0
  oldNonce := 0
  shares := 1
  harvesterSig := []

theorem unsigned_farm_init_leaves_no_trace : ∃ t u,
    (SkippedFold.farmInit { longFarm with kernelSig := [] } (longFarmId codeKeccak) (wordOfNat 3, 0) [] 0 []).run
      (clearCrypto codeKeccak).toCrypto (ScanReflection.genesis codeKeccak) = .err "farm_init fold: treasury-funding kernel" t ∧
    scanLpHarvest (clearCrypto codeKeccak) (clearTx 0) (spendWitness [] [] []) unfarmedHarvest (ScanReflection.genesis codeKeccak) =
      .ok () u ∧
    t = ScanReflection.genesis codeKeccak ∧ u = ScanReflection.genesis codeKeccak := by
  have herr : (SkippedFold.farmInit { longFarm with kernelSig := [] } (longFarmId codeKeccak) (wordOfNat 3, 0) [] 0 []).run
      (clearCrypto codeKeccak).toCrypto (ScanReflection.genesis codeKeccak) =
      .err "farm_init fold: treasury-funding kernel" (ScanReflection.genesis codeKeccak) := by
    have hker : swapVarKernelVerify (clearCrypto codeKeccak).toCrypto longFarm.rewardAsset (wordOfNat 3, 0) []
        longFarm.cChangeOrSentinel longFarm.rewardTotal [] = false := rfl
    rw [SkippedFold.run, farmInitPair, if_pos (by decide)]
    refine bind_eq_err.2 (.inl ?_)
    refine (bind_check_of (by decide)).trans ((bind_check_of (by decide)).trans (bind_eq_err.2 (.inl ?_)))
    exact check_eq_err.2 ⟨by rw [hker]; rfl, rfl, rfl⟩
  have hskip : scanLpHarvest (clearCrypto codeKeccak) (clearTx 0) (spendWitness [] [] []) unfarmedHarvest
      (ScanReflection.genesis codeKeccak) = .ok () (ScanReflection.genesis codeKeccak) := rfl
  have hreg : (SkippedFold.farmInit { longFarm with kernelSig := [] } (longFarmId codeKeccak) (wordOfNat 3, 0) [] 0 []).Regular
      (clearCrypto codeKeccak).toCrypto (ScanReflection.genesis codeKeccak) := fun h => absurd rfl h
  exact ⟨_, _, herr, hskip, skipped_folds_leave_no_trace.1 _ _ hreg herr, skipped_folds_leave_no_trace.2 _ _ _ rfl hskip⟩

end Tacit
