import Tacit.Reflection.Farm.Moves
import Tacit.Reflection.Independence
/-!
# Farm steps that go through

What a farm step needs to be executed: a launcher, a bonder, an owner who signed, and witnesses for the note tree and
the spent set, which always exist while the two trees have room.
-/
namespace Tacit

open Prog

section Init

variable {C : Crypto}

/-- The treasury a farm-init opens. -/
def FarmInitEnvelope.treasury (e : FarmInitEnvelope) : PoolReserveState :=
  { assetA := e.rewardAsset, assetB := 0, reserveA := e.rewardTotal, reserveB := 0, totalShares := 0,
    c0Backed := true, feeBps := 0, capabilityFlags := 0, protocolFeeBps := 0, kLast := 0,
    protocolFeeAccrued := 0 }

/-- The rewards a farm-init registers. -/
def FarmInitEnvelope.rewards (C : Crypto) (e : FarmInitEnvelope) (height : U 64) : FarmRewardState :=
  { rate := e.rewardPerBlock, totalShares := 0, rps := 0, totalRewardDebt := 0, lastHeight := height,
    launcherPubkey := e.launcherPubkey, lpAsset := ammDeriveLpAssetId C e.poolId, startHeight := U.wrap 64 e.startHeight.val,
    endHeight := U.wrap 64 e.endHeight.val }

def FarmInitEnvelope.farmId (C : Crypto) (e : FarmInitEnvelope) : Word :=
  ammDeriveFarmId C e.poolId e.launcherPubkey e.rewardAsset e.farmNonce

variable {G : BatchCrypto} {s : ScanReflection}

theorem foldFarmInitRewards_ok {f : Word} {e : FarmInitEnvelope} (hw : farmWindowOk e = true)
    (hnew : s.farmRewards.get f = none) : foldFarmInitRewards C f e.rewardPerBlock e.launcherPubkey e.poolId
      (U.wrap 64 e.startHeight.val) (U.wrap 64 e.endHeight.val) e.rewardTotal s =
      .ok () { s with farmRewards := s.farmRewards.set f (e.rewards C s.height) } := by
  have hs : (U.wrap 64 e.startHeight.val).val = e.startHeight.val := wrap_val (by have := e.startHeight.isLt; omega)
  have he : (U.wrap 64 e.endHeight.val).val = e.endHeight.val := wrap_val (by have := e.endHeight.isLt; omega)
  simp only [farmWindowOk, Bool.and_eq_true, bne_iff_ne, decide_eq_true_eq] at hw
  obtain ⟨⟨⟨⟨⟨⟨h0, hlt⟩, hmul⟩, hrate⟩, hwin⟩, hmax⟩, hfund⟩ := hw
  have hwindow : (U.saturatingSub (U.wrap 64 e.endHeight.val) (U.wrap 64 e.startHeight.val)).val =
      e.endHeight.val - e.startHeight.val := by
    simp only [U.saturatingSub, hs, he]
  have hend : U.wrap 64 e.endHeight.val ≠ 0 := by
    intro h
    rw [← Fin.val_inj, he] at h
    exact h0 h
  have hopens : ¬ U.wrap 64 e.endHeight.val ≤ U.wrap 64 e.startHeight.val := by
    intro h
    have h : (U.wrap 64 e.endHeight.val).val ≤ (U.wrap 64 e.startHeight.val).val := h
    omega
  have hprod : U.checkedMul e.rewardPerBlock (U.saturatingSub (U.wrap 64 e.endHeight.val) (U.wrap 64 e.startHeight.val)) =
      some ⟨e.rewardPerBlock.val * (e.endHeight.val - e.startHeight.val), hmul⟩ := by
    rw [U.checkedMul_eq_some, hwindow]
  simp only [foldFarmInitRewards, bind_eq_ok, get_eq_ok, check_eq_ok, orThrow_eq_ok, orPanic_eq_ok, modify_eq_ok,
    SortedMap.insert_eq_some]
  refine ⟨_, _, ⟨rfl, rfl⟩, (), _, ⟨by simp [hnew], rfl⟩, (), _, ⟨hend, rfl⟩, (), _, ⟨hopens, rfl⟩, (), _, ⟨by omega, rfl⟩,
    (), _, ⟨by omega, rfl⟩, _, _, ⟨hprod, rfl⟩, (), _, ⟨by simpa using hmax, rfl⟩, (), _, ⟨?_, rfl⟩, _, _, ⟨⟨hnew, rfl⟩, rfl⟩, rfl⟩
  intro h
  have h : e.rewardTotal.val < e.rewardPerBlock.val * (e.endHeight.val - e.startHeight.val) := h
  omega

theorem foldFarmInit_ok {f : Word} {e : FarmInitEnvelope} {input : OutPoint} {c : Bytes} {outpoint : Word} {path : List Word}
    (h0 : e.rewardTotal ≠ 0) (hsent : isSentinel e.cChangeOrSentinel = true)
    (hker : swapVarKernelVerify C e.rewardAsset input c e.cChangeOrSentinel e.rewardTotal e.kernelSig = true)
    (hpool : s.pools.get f = none) (hexp : expired e.refundExpiry s.height = false) :
    foldFarmInit C e f input c true outpoint path s = .ok true { s with pools := s.pools.set f e.treasury } := by
  have hcond : ¬ ((s.pools.get f).isSome ∨ expired e.refundExpiry s.height) := by simp [hpool, hexp]
  simp only [foldFarmInit, bind_eq_ok, check_eq_ok, get_eq_ok]
  refine ⟨(), _, ⟨h0, rfl⟩, (), _, ⟨by simp [hsent], rfl⟩, (), _, ⟨by simp [hker], rfl⟩, _, _, ⟨rfl, rfl⟩, ?_⟩
  rw [if_neg hcond]
  simp only [insertPool, bind_eq_ok, get_eq_ok, orPanic_eq_ok, SortedMap.insert_eq_some, modify_eq_ok, pure_eq_ok]
  exact ⟨(), _, ⟨_, _, ⟨rfl, rfl⟩, _, _, ⟨⟨hpool, rfl⟩, rfl⟩, rfl⟩, trivial, rfl⟩

/-- A signed and funded farm-init opens the farm. -/
theorem scanFarmInit_ok {tx : Tx} {w : TxWitness} {e : FarmInitEnvelope} {d : DetectedSpend} {ds : List DetectedSpend}
    {pt : Point} (hasset : d.asset = e.rewardAsset) (hpt : G.fromAffineXy d.cx d.cy = some pt)
    (hsig : G.bip340Verify e.launcherSig
      (farmInitMsg G.toCrypto (e.farmId G.toCrypto) e (ammFundingHash G.toCrypto [d.prev] e.kernelSig)) (xOnly e.launcherPubkey) = true)
    (hw : farmWindowOk e = true) (h0 : e.rewardTotal ≠ 0) (hsent : isSentinel e.cChangeOrSentinel = true)
    (hker : swapVarKernelVerify G.toCrypto e.rewardAsset d.prev (G.compress pt) e.cChangeOrSentinel e.rewardTotal e.kernelSig = true)
    (hpool : s.pools.get (e.farmId G.toCrypto) = none) (hexp : expired e.refundExpiry s.height = false)
    (hnew : s.farmRewards.get (e.farmId G.toCrypto) = none) :
    scanFarmInit G tx w e (d :: ds) s = .ok () { s with
      pools := s.pools.set (e.farmId G.toCrypto) e.treasury,
      farmRewards := s.farmRewards.set (e.farmId G.toCrypto) (e.rewards G.toCrypto s.height) } := by
  unfold scanFarmInit
  simp only [hasset, decide_true, hpt, hw, if_true]
  rw [if_neg (by rw [← FarmInitEnvelope.farmId, hsig]; simp)]
  refine bind_eq_ok.2 ⟨.ok true, _, attempt_eq_ok.2 (.inr ⟨true, rfl, foldFarmInit_ok h0 hsent hker hpool hexp⟩), ?_⟩
  exact bind_eq_ok.2 ⟨.ok (), _, attempt_eq_ok.2 (.inr ⟨(), rfl, foldFarmInitRewards_ok hw hnew⟩), rfl⟩

end Init

section Positions

variable {G : BatchCrypto} {s : ScanReflection} {st st' : FarmRewardState} {entry : U 128} {X : List Word}

/-- A signed bond of shares the farm can take is booked, while the note tree has room. -/
theorem exists_bond (hX : NoteTree G.toKeccak s.poolRoot s.noteCount X) (hroom : s.noteCount < 2 ^ 32) (tx : Tx) (w : TxWitness)
    (spends : List DetectedSpend) {e : LpBondEnvelope} (hst : s.farmRewards.get e.farmId = some st)
    (hbond : st.bond e.bondAmount s.height = some (st', entry)) {r : Receipt}
    (hr : r = ⟨e.farmId, st.lpAsset, e.bondAmount, e.ownerCommit, e.nonce⟩) (hfresh : s.farmEntries.get (r.leaf G.toKeccak) = none)
    {pts : List Point} (hpts : (collect G spends st.lpAsset).2 = some pts)
    (hker : lpBondKernelVerify G.toCrypto e.farmId st.lpAsset e.bondAmount (collect G spends st.lpAsset).1 pts e.kernelSig = true)
    (hsig : G.bip340Verify e.bonderSig (lpBondMsg G.toCrypto e
      (ammFundingHash G.toCrypto (collect G spends st.lpAsset).1 e.kernelSig)) (xOnly e.bonderPubkey) = true) :
    ∃ path root, keccakTreeAppendTransition G.toKeccak s.poolRoot s.noteCount path (r.leaf G.toKeccak) = some root ∧
      (FarmOp.bond tx { w with paths := [path] } spends e).run G s = .ok () { s with
        poolRoot := root, noteCount := s.noteCount + 1, farmEntries := s.farmEntries.set (r.leaf G.toKeccak) entry,
        farmRewards := s.farmRewards.set e.farmId st' } := by
  obtain ⟨path, root, hroot⟩ := hX.exists_append hroom (r.leaf G.toKeccak)
  refine ⟨path, root, hroot, ?_⟩
  obtain ⟨h0, -⟩ := FarmRewardState.bond_eq_some hbond
  have hleaf : r.leaf G.toKeccak = farmReceiptLeaf G.toKeccak e.farmId st.lpAsset e.bondAmount e.ownerCommit e.nonce := by rw [hr]; rfl
  rw [hleaf] at hfresh hroot ⊢
  simp only [FarmOp.run, scanLpBond, bind_eq_ok, get_eq_ok]
  refine ⟨_, _, ⟨rfl, rfl⟩, ?_⟩
  simp only [hst, hpts, hker, hsig, Bool.and_self, if_true]
  refine bind_eq_ok.2 ⟨.ok (farmReceiptLeaf G.toKeccak e.farmId st.lpAsset e.bondAmount e.ownerCommit e.nonce), _,
    attempt_eq_ok.2 (.inr ⟨_, rfl, ?_⟩), rfl⟩
  simp only [foldLpBond, bind_eq_ok, get_eq_ok, orThrow_eq_ok, check_eq_ok]
  refine ⟨_, _, ⟨rfl, rfl⟩, _, _, ⟨hst, rfl⟩, (), _, ⟨h0, rfl⟩, ?_⟩
  simp only [hbond, hfresh, Option.isSome_none, Bool.false_eq_true, if_false, bind_eq_ok, expect_eq_ok, modify_eq_ok, setFarm,
    get_eq_ok, orPanic_eq_ok, SortedMap.update_eq_some, pure_eq_ok]
  exact ⟨(), _, foldNoteAppend_eq_ok.2 ⟨root, hroot, rfl⟩, (), _, rfl, (), _,
    ⟨_, _, ⟨rfl, rfl⟩, _, _, ⟨⟨⟨st, hst⟩, rfl⟩, rfl⟩, rfl⟩, trivial, rfl⟩

/-- A signed unbond of a live position is executed, while its receipt is in the note tree, its nullifier is not spent
and both trees have room: the shares come back in a note to output 1. -/
theorem exists_unbond {S : List Word} (hK : G.toKeccak.Ideal) (hX : NoteTree G.toKeccak s.poolRoot s.noteCount X)
    (hroom : s.noteCount < 2 ^ 32) (hS : s.Spent G.toKeccak S) (hroom' : s.spentCount < 2 ^ 32) {tx : Tx} {e : LpUnbondEnvelope}
    {r : Receipt} (hst : s.farmRewards.get e.farmId = some st)
    (hr : r = ⟨e.farmId, st.lpAsset, e.shares, e.ownerCommit, e.nonce⟩) (hleaf : r.leaf G.toKeccak ∈ X)
    (hnull : r.nullifier G.toKeccak ∉ S) (hstamp : s.farmEntries.get (r.leaf G.toKeccak) = some entry)
    (hunbond : st.unbond r.shares entry s.height = some st')
    (hsig : G.bip340Verify e.unbonderSig (lpUnbondOwnerMsg G.toCrypto e (r.leaf G.toKeccak) (tx.outputScriptpubkey 1)) e.ownerCommit = true)
    {auth : Word} (hdest : p2trXonly (tx.outputScriptpubkey 1) = some auth)
    (hlive : s.live.get (outpointKey G.toKeccak (tx.txid, 1)) = none) {pt : Point}
    (hret : G.decompress (G.pedersenCommitCompressed e.shares.val e.lpReturnR) = some pt) (w : TxWitness) :
    ∃ w' t root root', (FarmOp.unbond tx w' e).run G s = .ok () t ∧
      w'.receiptSpent.Accepted G.toKeccak s.spentRoot s.spentCount (r.nullifier G.toKeccak) root' ∧
      t = { s.withNote root (outpointKey G.toKeccak (tx.txid, 1)) ⟨commitmentHash G.toKeccak pt.x pt.y, r.asset, auth, false⟩ with
        farmEntries := s.farmEntries.erase (r.leaf G.toKeccak), spentRoot := root', spentCount := s.spentCount + 1,
        farmRewards := s.farmRewards.set e.farmId st' } := by
  obtain ⟨i, oldPath, hmem⟩ := hX.exists_verify hleaf
  obtain ⟨spent, root', hspent⟩ := ImtSet.exists_insert hS hroom' (r.nullifier_ne_zero hK) hnull
  obtain ⟨path, root, hroot⟩ := hX.exists_append hroom (btcNoteLeaf G.toKeccak st.lpAsset pt.x pt.y auth)
  obtain ⟨h0, hle, hdebt, -⟩ := FarmRewardState.unbond_eq_some hunbond
  refine ⟨{ w with oldIndex := i, oldPath := oldPath, receiptSpent := spent, paths := [path] }, _, root, root', ?_, hspent, rfl⟩
  subst hr
  refine bind_eq_ok.2 ⟨.ok (), _, attempt_eq_ok.2 (.inr ⟨(), rfl, ?_⟩), rfl⟩
  have hspend : receiptSpendRoot G.toCrypto (Receipt.leaf G.toKeccak ⟨e.farmId, st.lpAsset, e.shares, e.ownerCommit, e.nonce⟩) i oldPath
      spent s = .ok root' s := by
    refine bind_eq_ok.2 ⟨_, _, get_eq_ok.2 ⟨rfl, rfl⟩, bind_eq_ok.2 ⟨(), _, check_eq_ok.2 ⟨by simp [hmem], rfl⟩, ?_⟩⟩
    exact orThrow_eq_ok.2 ⟨hspent, rfl⟩
  have hbad : ¬ (e.shares = 0 ∨ e.shares > st.totalShares ∨ 2 ^ 128 ≤ e.shares.val * entry.val ∨
      st.totalRewardDebt.val < e.shares.val * entry.val) := by
    have hlt := st.totalRewardDebt.isLt
    dsimp only at hdebt
    rintro (h | h | h | h)
    · exact h0 h
    · exact absurd h (not_lt.2 hle)
    · omega
    · omega
  simp only [foldLpUnbond, bind_eq_ok, get_eq_ok, orThrow_eq_ok, check_eq_ok, modify_eq_ok]
  refine ⟨_, _, ⟨rfl, rfl⟩, _, _, ⟨hst, rfl⟩, _, _, ⟨hstamp, rfl⟩, (), _, ⟨?_, rfl⟩, root', _, hspend, (), _, ⟨hbad, rfl⟩, auth, _,
    ⟨hdest, rfl⟩, (), _, onboardNote_eq_ok.2 ⟨pt, root, hret, hroot, hlive, rfl⟩, st', _, ⟨hunbond, rfl⟩, (), _, rfl, ?_⟩
  · rw [show farmReceiptLeaf G.toKeccak e.farmId st.lpAsset e.shares e.ownerCommit e.nonce =
      Receipt.leaf G.toKeccak ⟨e.farmId, st.lpAsset, e.shares, e.ownerCommit, e.nonce⟩ from rfl, hsig]
    simp
  · simp only [setFarm, bind_eq_ok, get_eq_ok, orPanic_eq_ok, SortedMap.update_eq_some, modify_eq_ok]
    exact ⟨_, _, ⟨rfl, rfl⟩, _, _, ⟨⟨⟨st, hst⟩, rfl⟩, rfl⟩, rfl⟩

/-- A refund the launcher signed is paid, while nobody is bonded. -/
theorem exists_refund (hX : NoteTree G.toKeccak s.poolRoot s.noteCount X) (hroom : s.noteCount < 2 ^ 32) {tx : Tx}
    {e : FarmRefundEnvelope} (hst : s.farmRewards.get e.farmId = some st) (hkey : st.launcherPubkey = e.launcherPubkey)
    (hvacant : st.totalShares = 0) {pool : PoolReserveState} (hpool : s.pools.get e.farmId = some pool) (hc0 : pool.c0Backed = true)
    (h0 : e.refundAmount ≠ 0) (hle : e.refundAmount.val ≤ pool.reserveA.val)
    (hsig : G.bip340Verify e.launcherSig (farmRefundMsg G.toCrypto e (tx.outputScriptpubkey 1)) (xOnly e.launcherPubkey) = true)
    {auth : Word} (hdest : p2trXonly (tx.outputScriptpubkey 1) = some auth)
    (hlive : s.live.get (outpointKey G.toKeccak (tx.txid, 1)) = none) {pt : Point}
    (hret : G.decompress (G.pedersenCommitCompressed e.refundAmount.val e.refundR) = some pt) (w : TxWitness) :
    ∃ path root, keccakTreeAppendTransition G.toKeccak s.poolRoot s.noteCount path
        (btcNoteLeaf G.toKeccak pool.assetA pt.x pt.y auth) = some root ∧
      (FarmOp.refund tx { w with paths := [path] } e).run G s = .ok () {
        s.withNote root (outpointKey G.toKeccak (tx.txid, 1)) ⟨commitmentHash G.toKeccak pt.x pt.y, pool.assetA, auth, false⟩ with
        pools := s.pools.set e.farmId { pool with reserveA := U.saturatingSub pool.reserveA e.refundAmount } } := by
  obtain ⟨path, root, hroot⟩ := hX.exists_append hroom (btcNoteLeaf G.toKeccak pool.assetA pt.x pt.y auth)
  refine ⟨path, root, hroot, ?_⟩
  refine bind_eq_ok.2 ⟨.ok (), _, attempt_eq_ok.2 (.inr ⟨(), rfl, ?_⟩), rfl⟩
  have hbad : ¬ (e.refundAmount = 0 ∨ e.refundAmount > pool.reserveA) := not_or.2 ⟨h0, not_lt.2 hle⟩
  simp only [foldFarmRefund, foldHarvest, bind_eq_ok, get_eq_ok, orThrow_eq_ok, check_eq_ok]
  refine ⟨_, _, ⟨rfl, rfl⟩, _, _, ⟨hst, rfl⟩, (), _, ⟨by simp [hkey], rfl⟩, (), _, ⟨by simp [hvacant], rfl⟩, (), _,
    ⟨by simp [hsig], rfl⟩, _, _, ⟨rfl, rfl⟩, _, _, ⟨hpool, rfl⟩, (), _, ⟨by simp [hc0], rfl⟩, (), _, ⟨hbad, rfl⟩, auth, _,
    ⟨hdest, rfl⟩, (), _, onboardNote_eq_ok.2 ⟨pt, root, hret, hroot, hlive, rfl⟩, ?_⟩
  simp only [setPool, bind_eq_ok, get_eq_ok, orPanic_eq_ok, SortedMap.update_eq_some, modify_eq_ok]
  exact ⟨_, _, ⟨rfl, rfl⟩, _, _, ⟨⟨⟨pool, hpool⟩, rfl⟩, rfl⟩, rfl⟩

end Positions

/-! ## A farm with open commitments

`2^31` units a block over `2^31` blocks, funded in full; bonds of any size. -/

section LongFarm

variable (K : Keccak)

def longFarm : FarmInitEnvelope where
  poolId := wordOfNat 1
  farmNonce := 0
  launcherPubkey := []
  rewardAsset := wordOfNat 2
  rewardTotal := ⟨2 ^ 62, by decide⟩
  rewardPerBlock := ⟨2 ^ 31, by decide⟩
  startHeight := 0
  endHeight := ⟨2 ^ 31, by decide⟩
  cChangeOrSentinel := []
  kernelSig := validSig
  launcherSig := validSig
  refundExpiry := 1
  refundDestXonly := 0
  refundBlinding := 0

/-- Its id. -/
def longFarmId : Word := longFarm.farmId (clearCrypto K).toCrypto

/-- Its rewards as registered at genesis. -/
def longFarmRewards : FarmRewardState := longFarm.rewards (clearCrypto K).toCrypto 0

/-- A spent note of the asset with the value. -/
def clearSpend (asset : Word) (v : Nat) : DetectedSpend :=
  ⟨0, (wordOfNat 3, 0), (clearPoint v (wordOfNat 5)).x, (clearPoint v (wordOfNat 5)).y, ⟨0, asset, 0, false⟩⟩

/-- A transaction with a P2TR output 1. -/
def clearTx (txid : Nat) : Tx where
  txid := wordOfNat txid
  inputs := []
  witness := []
  outputs := [(0, []), (546, [0x51, 0x20] ++ secpG.x.bytes)]
  envelope := none

def launched : ScanReflection := { ScanReflection.genesis K with
  pools := SortedMap.empty.set (longFarmId K) longFarm.treasury
  farmRewards := SortedMap.empty.set (longFarmId K) (longFarmRewards K) }

theorem launch_ok (w : TxWitness) :
    (FarmOp.init (clearTx 0) w [clearSpend (wordOfNat 2) (2 ^ 62)] longFarm).run (clearCrypto K) (ScanReflection.genesis K) =
      .ok () (launched K) := by
  have hpt : (clearCrypto K).fromAffineXy (clearSpend (wordOfNat 2) (2 ^ 62)).cx (clearSpend (wordOfNat 2) (2 ^ 62)).cy =
      some (clearPoint (2 ^ 62) (wordOfNat 5)) := rfl
  have hw : farmWindowOk longFarm = true := by decide
  have h0 : longFarm.rewardTotal ≠ 0 := by decide
  rw [FarmOp.run]
  refine scanFarmInit_ok rfl hpt ?_ hw h0 rfl ?_ rfl rfl rfl
  · simp [clearCrypto, longFarm]
  · simp [swapVarKernelVerify, clearCrypto, longFarm, isSentinel, clearBalances]

def bondOf (n : U 64) : LpBondEnvelope where
  farmId := longFarmId K
  bonderPubkey := []
  bondAmount := n
  entryAccPerShare := 0
  bondViewHeight := 0
  ownerCommit := secpG.x
  nonce := 0
  kernelSig := validSig
  bonderSig := validSig
  refundExpiry := 1
  refundDestXonly := 0
  refundBlinding := 0

/-- The receipt of that bond. -/
def bondReceipt (n : U 64) : Receipt := ⟨longFarmId K, (longFarmRewards K).lpAsset, n, secpG.x, 0⟩

variable {K} {s : ScanReflection} {st st' : FarmRewardState} {entry : U 128} {X : List Word}

theorem exists_bond_clear (hX : NoteTree K s.poolRoot s.noteCount X) (hroom : s.noteCount < 2 ^ 32) (w : TxWitness) {n : U 64}
    (hst : s.farmRewards.get (longFarmId K) = some st) (hlp : st.lpAsset = (longFarmRewards K).lpAsset)
    (hbond : st.bond n s.height = some (st', entry)) (hfresh : s.farmEntries.get ((bondReceipt K n).leaf K) = none) :
    ∃ w' root, keccakTreeAppendTransition K s.poolRoot s.noteCount (w'.path 0) ((bondReceipt K n).leaf K) = some root ∧
      (FarmOp.bond (clearTx 0) w' [clearSpend (longFarmRewards K).lpAsset n.val] (bondOf K n)).run (clearCrypto K) s = .ok () { s with
        poolRoot := root, noteCount := s.noteCount + 1, farmEntries := s.farmEntries.set ((bondReceipt K n).leaf K) entry,
        farmRewards := s.farmRewards.set (longFarmId K) st' } := by
  obtain ⟨h0, -⟩ := FarmRewardState.bond_eq_some hbond
  have hcollect : collect (clearCrypto K) [clearSpend (longFarmRewards K).lpAsset n.val] st.lpAsset =
      ([(wordOfNat 3, 0)], some [clearPoint n.val (wordOfNat 5)]) := by
    simp [collect, clearSpend, DetectedSpend.asset, hlp, Crypto.fromAffineXy, clearCrypto]
  have hker : lpBondKernelVerify (clearCrypto K).toCrypto (bondOf K n).farmId st.lpAsset (bondOf K n).bondAmount
      (collect (clearCrypto K) [clearSpend (longFarmRewards K).lpAsset n.val] st.lpAsset).1 [clearPoint n.val (wordOfNat 5)]
      (bondOf K n).kernelSig = true := by
    rw [hcollect]
    simp [lpBondKernelVerify, bondOf, h0, clearCrypto, clearBalances]
  obtain ⟨path, root, hroot, hrun⟩ := exists_bond (G := clearCrypto K) (e := bondOf K n) (r := bondReceipt K n) hX hroom
    (clearTx 0) w [clearSpend (longFarmRewards K).lpAsset n.val] hst hbond (by rw [hlp]; rfl) hfresh
    (congrArg Prod.snd hcollect) hker (by simp [clearCrypto, bondOf])
  exact ⟨{ w with paths := [path] }, root, hroot, hrun⟩

/-- The farm after a first bond of `n` shares at genesis. -/
def bonded (K : Keccak) (n : U 64) (root : Word) : ScanReflection := { launched K with
  poolRoot := root
  noteCount := 1
  farmEntries := SortedMap.empty.set ((bondReceipt K n).leaf K) 0
  farmRewards := (launched K).farmRewards.set (longFarmId K) { longFarmRewards K with totalShares := n } }

theorem longFarm_bond {n : U 64} (h0 : n ≠ 0) :
    (longFarmRewards K).bond n 0 = some ({ longFarmRewards K with totalShares := n }, 0) := by
  have hacc : (longFarmRewards K).accrue 0 = longFarmRewards K := FarmRewardState.accrue_of_le (Nat.zero_le _)
  have hd : U.ofNat? 128 (n.val * (longFarmRewards K).rps.val) = some 0 := by
    rw [U.ofNat?_eq_some]
    simp [longFarmRewards, FarmInitEnvelope.rewards]
  have ht : U.checkedAdd (longFarmRewards K).totalShares n = some n := by
    rw [U.checkedAdd_eq_some]
    simp [longFarmRewards, FarmInitEnvelope.rewards]
  have hz : U.checkedAdd (longFarmRewards K).totalRewardDebt 0 = some 0 := by
    rw [U.checkedAdd_eq_some]
    simp [longFarmRewards, FarmInitEnvelope.rewards]
  simp only [FarmRewardState.bond, if_neg h0, hacc, hd, ht, hz, Option.bind_eq_bind, Option.bind_some]
  rfl

theorem noteTree_launched : NoteTree K (launched K).poolRoot (launched K).noteCount [] := noteTree_empty

theorem launched_rewards : (launched K).farmRewards.get (longFarmId K) = some (longFarmRewards K) := by simp [launched]

theorem exists_bonded (w : TxWitness) {n : U 64} (h0 : n ≠ 0) : ∃ w' root,
    keccakTreeAppendTransition K (launched K).poolRoot 0 (w'.path 0) ((bondReceipt K n).leaf K) = some root ∧
    (FarmOp.bond (clearTx 0) w' [clearSpend (longFarmRewards K).lpAsset n.val] (bondOf K n)).run (clearCrypto K) (launched K) =
      .ok () (bonded K n root) :=
  exists_bond_clear noteTree_launched (Nat.two_pow_pos 32) w launched_rewards rfl (longFarm_bond h0) (SortedMap.get_empty _)

end LongFarm

end Tacit
