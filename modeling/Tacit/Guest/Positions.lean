import Tacit.Guest.FarmStamps
import Tacit.Guest.SavingsStamps
/-!
# Every sane position can be left

The two controllers that stamp receipts, over every run from a deployed pool. A bond asks neither that its owner is a key
nor that its receipt was never unbonded: where every bond to the controller meets both, no stamp is ever stuck; one bond
under a word that is no key is.
-/
namespace Tacit

open Prog ConfidentialPool SettleGuest

/-- **Farm positions can be left.** In every run whose bonds to the controller have a key as owner and an unspent nullifier,
each receipt stamped by a farm controller of the pool, or by the savings rate of the collateral engine, has both still; and
once its lock-up has passed, while the note tree has room, an unbond of it is accepted and mints its shares. -/
theorem farm_position_exits {C : Proofs} (hC : C.toKeccak.Ideal) {D : Deployment} (hD : D.keccak = C.toKeccak) :
    (∀ (cfg : FarmController.Config) (address : U 160) (w : World (farmReceipts hC cfg address)), cfg.pool = D.self →
      Reachable C D _ (Sane C) w → w.AllExit D) ∧
    ∀ (M : CollateralEngine.FixedPointMath) (hM : M.Exact) (cfg : CollateralEngine.Config) (hself : D.self ≠ 0)
      (address : U 160) (w : World (savingsReceipts hC hM cfg hself address)), Reachable C D _ (Sane C) w → w.AllExit D :=
  ⟨fun _ _ _ _ h => (h.sound hC).exits hC hD, fun _ _ _ _ _ _ h => (h.sound hC).exits hC hD⟩

/-! ## One bond -/

namespace SettleGuest

/-- The curve primitives, with the one opening that the runs below show: `H` commits to 1. -/
def curveProofs (K : Keccak) : Proofs :=
  { curveCrypto K with
    verifyOpeningSigma := fun p v r z _ => p == genH && v == 1 && r == secpG && z == wordOfNat 1 }

def unitOpening : Opening := ⟨genH.x, genH.y, secpG.compress, wordOfNat 1⟩

variable {K : Keccak}

theorem unitOpening_opens (ctxt : Word) : unitOpening.opens (curveProofs K) 1 ctxt = true := by
  have hG : (curveProofs K).decompress secpG.compress = some secpG := by
    show [secpG, genH].find? (fun p => p.compress == secpG.compress) = some secpG
    decide +kernel
  have hH : (curveProofs K).toCrypto.fromAffineXy genH.x genH.y = some genH := by
    have hon : secpOnCurve genH.x genH.y = true := by decide +kernel
    show (if secpOnCurve genH.x genH.y then some (⟨genH.x, genH.y⟩ : Point) else none) = some genH
    rw [if_pos hon]
  unfold Opening.opens unitOpening
  rw [hG, hH]
  simp [curveProofs]

theorem curveProofs_complete : Complete (curveProofs K) ⟨1, by decide⟩ where
  signs _ _ _ := ⟨validSig, by simp [curveProofs, curveCrypto]⟩
  opens := ⟨genH.x, genH.y, fun ctxt => ⟨secpG.compress, wordOfNat 1, unitOpening_opens ctxt⟩⟩

theorem xOnly_secpG : XOnly (curveProofs K).toCrypto secpG.x := by
  have h : (2 :: secpG.x.bytes) = secpG.compress := by decide +kernel
  show ([secpG, genH].find? fun p => p.compress == 2 :: secpG.x.bytes).isSome
  rw [h]
  decide +kernel

/-- No point has the x coordinate 0. -/
theorem not_xOnly_zero : ¬ XOnly (curveProofs K).toCrypto 0 := by
  show ¬ ([secpG, genH].find? fun p => p.compress == 2 :: (0 : Word).bytes).isSome
  decide +kernel

/-! The run: the pool wraps one unit of ether into a note, and a farm bonds the note under `owner`. -/

variable (K) (owner : Word)

def etherId : Word := evmAssetId (demoDeployment K) 0

theorem reward_ne_debt : true ≠ decide (wordOfNat 8 = wordOfNat 9) := by decide

/-- A reward farm of the pool that stakes ether. -/
def etherFarm : FarmController.Config where
  pool := 5
  stakeAsset := etherId K
  rewardAsset := wordOfNat 8
  debtAsset := wordOfNat 9
  escrowMode := true
  receiptMode := true
  gov := 2
  shape := reward_ne_debt

def unitReceipt : Receipt := ⟨controller32 1, etherId K, ⟨1, one_lt_pow_64⟩, owner, 0⟩

def unitLeaf : Word := leaf K (etherId K) genH.x genH.y 0

def unitDeposit : Word := depositId K (etherId K) 1 (depositCommit K genH.x genH.y 0)

def registered : ConfidentialPool.Storage :=
  { Storage.blank K 0 0 with
    assets := Function.update (fun _ => AssetStore.none) (etherId K) ⟨true, 0, false, 18, 10 ^ 10, 0⟩ }

def deposited : ConfidentialPool.Storage :=
  { registered K with
    depositStatus := Function.update (fun _ => 0) (unitDeposit K) 1
    escrow := Function.update (fun _ => 0) (etherId K) (10 ^ 10) }

theorem registered_ok :
    (Call.registerWrapped 0 (10 ^ 10) 0 18).prog (demoDeployment K) demoEnv (Storage.blank K 0 0) = .ok () (registered K) := by
  rfl

theorem deposited_ok :
    (Call.wrap (etherId K) (10 ^ 10) (depositCommit K genH.x genH.y 0)).prog (demoDeployment K) { demoEnv with value := 10 ^ 10 }
      (registered K) = .ok () (deposited K) := by
  have hasset : rAsset (registered K) (etherId K) = ⟨true, 0, false, 18, 10 ^ 10, 0⟩ := by
    simp [rAsset, resolveAsset, registered]
  have hsuccessor : (registered K).successor = 0 := rfl
  have hfresh : (registered K).depositStatus = fun _ => 0 := rfl
  have hescrow : (registered K).escrow = fun _ => 0 := rfl
  simp [Call.prog, ConfidentialPool.wrap, hasset, hsuccessor, amountToValue, ckU64, registerDeposit, hfresh, moveInUnderlying,
    addEscrow, hescrow]
  rfl

/-! The first batch makes the note. -/

def noSpend : Header := ⟨(demoDeployment K).chainBinding, 0, 0, 0, 0, 0⟩

def memoHash : Word := K.k2 0 (K.hash [])

def wrapBatch : PublicValues := plainBatch (demoDeployment K) 0 [] [unitLeaf K] [unitDeposit K] [] [] (memoHash K)

def unitWrap : Wrap := ⟨etherId K, ⟨1, one_lt_pow_64⟩, unitOpening, 0⟩

theorem wrapBatch_proved : main (curveProofs K) (noSpend K) [K.hash []] [.wrap (unitWrap K)] = some (wrapBatch K) := by
  have hwrap : SettleGuest.wrap (curveProofs K) (noSpend K) (unitWrap K) =
      some { leaves := [unitLeaf K], deposits := [unitDeposit K] } := by
    have hopens : ∀ ctxt, (unitWrap K).note.opens (curveProofs K) (unitWrap K).value.val ctxt = true := unitOpening_opens
    simp only [SettleGuest.wrap, hopens]
    rfl
  have hall : [Op.wrap (unitWrap K)].mapM (Op.run (curveProofs K) (noSpend K)) =
      some [{ leaves := [unitLeaf K], deposits := [unitDeposit K] }] := by
    simp [Op.run, hwrap]
  have heffects : [({ leaves := [unitLeaf K], deposits := [unitDeposit K] } : Effects)].foldr (· ++ ·) ({} : Effects) =
      { leaves := [unitLeaf K], deposits := [unitDeposit K] } := rfl
  have hlane : (noSpend K).authenticated = false := by simp [Header.authenticated, noSpend]
  simp [main, hall, heffects, maxOps, hlane]
  rfl

/-- The pool after the first batch. -/
def wrapped (tree : Tree) : ConfidentialPool.Storage :=
  { deposited K with
    depositStatus := Function.update (deposited K).depositStatus (unitDeposit K) 2
    notes := tree }

theorem wrapBatch_ok : ∃ tree, tree.Holds K [unitLeaf K] ∧ tree.everKnownRoot tree.currentRoot = true ∧
    settle (demoDeployment K) demoEnv (wrapBatch K) [[]] (deposited K) = .ok () (wrapped K tree) := by
  have htree : (deposited K).notes.Holds K [] := Tree.holds_empty
  obtain ⟨tree, hinsert⟩ := exists_insertLeaves [unitLeaf K] htree (by simp)
  have hknown := insertLeaves_known (t := (deposited K).notes) (by simp [deposited, registered, Storage.blank, Tree.empty]) hinsert
  have hspend : forEach [] spendNullifier (deposited K) = .ok () (deposited K) := rfl
  have hcdp : cdpSection (demoDeployment K) demoEnv (wrapBatch K) (deposited K) = .ok () (deposited K) := by
    simp [cdpSection, cdpRootCheck, cdpMints, wrapBatch, plainBatch, PublicValues.none]
  have hcount : countNullifiers (wrapBatch K) false (deposited K) = .ok () (deposited K) :=
    countNullifiers_ok rfl (Nat.two_pow_pos _)
  have hdeposits : forEach [unitDeposit K] consumeDeposit (deposited K) =
      .ok () { deposited K with depositStatus := Function.update (deposited K).depositStatus (unitDeposit K) 2 } := by
    simp [consumeDeposit, deposited]
  exact ⟨tree, htree.insertLeaves hinsert, hknown, settle_plain rfl rfl (Or.inr rfl) rfl rfl hspend hcdp hcount hdeposits
    (leafSection_ok (D := demoDeployment K) hinsert (Nat.zero_le _))⟩

/-! The second bonds it. -/

def unitBond (i : U 64) (path : List Word) : FarmBond :=
  ⟨1, owner, 0, etherId K, [⟨unitOpening, ⟨1, one_lt_pow_64⟩, i, path, 0, 0, ⟨0, 0, ⟨0, by decide⟩, []⟩⟩], []⟩

def bondEffects : Effects where
  nullifiers := [nullifier K (unitLeaf K)]
  leaves := [(unitReceipt K owner).leaf K]
  cdpMints := [bondMint K 1 (unitReceipt K owner)]

def bondBatch (root : Word) : PublicValues :=
  plainBatch (demoDeployment K) root [nullifier K (unitLeaf K)] [(unitReceipt K owner).leaf K] []
    [bondMint K 1 (unitReceipt K owner)] [] (memoHash K)

variable {K} {tree : Tree}

theorem farmBond_unit (hroot : tree.currentRoot ≠ 0) {i : U 64} {path : List Word}
    (hpath : keccakMerkleVerify K (unitLeaf K) i.val path tree.currentRoot = true) :
    farmBond (curveProofs K) (ownLane (demoDeployment K) (wrapped K tree)) (unitBond K owner i path) =
      some (unitReceipt K owner, bondEffects K owner) := by
  have hlane : (ownLane (demoDeployment K) (wrapped K tree)).authenticated = false := by
    simp [Header.authenticated, ownLane]
  have hinput : inputLeafAuthed (curveProofs K) (ownLane (demoDeployment K) (wrapped K tree)) (etherId K) unitOpening.cx
      unitOpening.cy 0 0 = some ⟨unitLeaf K, nullifier K (unitLeaf K), 0⟩ := by
    simp only [inputLeafAuthed, hlane]
    rfl
  have hpath' : keccakMerkleVerify (curveProofs K).toKeccak (unitLeaf K) i.val path
      (ownLane (demoDeployment K) (wrapped K tree)).spendRoot = true := hpath
  have hroot' : (ownLane (demoDeployment K) (wrapped K tree)).spendRoot ≠ 0 := hroot
  have habsent : ∀ nu w, absent (curveProofs K) (ownLane (demoDeployment K) (wrapped K tree)) nu w = true := by
    simp [absent, ownLane]
  simp [farmBond, unitBond, bondLeg, hinput, hpath', hroot', habsent, unitOpening_opens, maxItemsPerOp, verifyBtcInputAuths,
    hlane, consumedSources, U.ofNat?]
  exact ⟨rfl, rfl⟩

theorem bondBatch_proved (hroot : tree.currentRoot ≠ 0) {i : U 64} {path : List Word}
    (hpath : keccakMerkleVerify K (unitLeaf K) i.val path tree.currentRoot = true) :
    main (curveProofs K) (ownLane (demoDeployment K) (wrapped K tree)) [K.hash []] [.farmBond (unitBond K owner i path)] =
      some (bondBatch K owner tree.currentRoot) := by
  have hbond := farmBond_unit owner hroot hpath
  generalize hw : unitBond K owner i path = w at *
  have hall : [Op.farmBond w].mapM (Op.run (curveProofs K) (ownLane (demoDeployment K) (wrapped K tree))) =
      some [bondEffects K owner] := by
    simp [Op.run, hbond]
  have heffects : [bondEffects K owner].foldr (· ++ ·) ({} : Effects) = bondEffects K owner := rfl
  have hlane : (ownLane (demoDeployment K) (wrapped K tree)).authenticated = false := by
    simp [Header.authenticated, ownLane]
  simp [main, hall, heffects, maxOps, hlane]
  rfl

theorem bondBatch_ok (htree : tree.Holds K [unitLeaf K]) (hknown : tree.everKnownRoot tree.currentRoot = true)
    (hroot : tree.currentRoot ≠ 0) :
    ∃ pool, settle (demoDeployment K) demoEnv (bondBatch K owner tree.currentRoot) [[]] (wrapped K tree) = .ok () pool := by
  let s₁ := { wrapped K tree with nullifierSpent := marked (wrapped K tree).nullifierSpent [nullifier K (unitLeaf K)] }
  have hhome : homeOf tree.currentRoot (wrapped K tree) = .ok false := by
    have hknown' : (wrapped K tree).notes.everKnownRoot tree.currentRoot = true := hknown
    simp [homeOf, hroot, hknown']
  have hspend : forEach [nullifier K (unitLeaf K)] spendNullifier (wrapped K tree) = .ok () s₁ := by
    have hfresh : (wrapped K tree).nullifierSpent (nullifier K (unitLeaf K)) = false := rfl
    simp [spendNullifier, markOnce_eq_ok, hfresh, s₁]
  have hmint : cdpMint (demoDeployment K) demoEnv (bondMint K 1 (unitReceipt K owner)) [] s₁ = .ok [] s₁ := by
    have hsentinel : ¬ wordOfNat 2 < wordOfNat 1 := by decide
    have hasset : cdpDebtAssetId K 1 = cdpDebtAsset (demoDeployment K) 1 := rfl
    simp [cdpMint, ckController, takeHarvest, callOut, demoEnv, hasset, bondMint, hsentinel]
  obtain ⟨s₂, hmark⟩ : ∃ s₂, s₂ = { s₁ with cdpTree := { s₁.cdpTree with
    everKnownRoot := Function.update s₁.cdpTree.everKnownRoot s₁.cdpTree.currentRoot true } } := ⟨_, rfl⟩
  have hcdp : cdpSection (demoDeployment K) demoEnv (bondBatch K owner tree.currentRoot) s₁ = .ok () s₂ := by
    have hmark' : markCdpRoot s₁ = .ok () s₂ := by
      rw [hmark]
      rfl
    simp [cdpSection, cdpRootCheck, cdpMints, hmint, hmark', bondBatch, plainBatch, PublicValues.none]
  have hcount : countNullifiers (bondBatch K owner tree.currentRoot) false s₂ = .ok () { s₂ with evmNullifiersSpent := 1 } := by
    rw [countNullifiers_ok rfl (by rw [hmark]; exact Nat.one_lt_two_pow (by decide)), hmark]
    rfl
  obtain ⟨tree', hinsert⟩ := exists_insertLeaves [(unitReceipt K owner).leaf K] htree (by simp)
  have hnext := (htree.insertLeaves hinsert).frontier.next_eq
  have hleaf : leafSection (demoDeployment K) (bondBatch K owner tree.currentRoot) { s₂ with evmNullifiersSpent := 1 } =
      .ok () { s₂ with evmNullifiersSpent := 1, notes := tree' } :=
    leafSection_ok (by rw [hmark]; exact hinsert) (by rw [hnext]; simp)
  exact ⟨_, settle_plain rfl hhome (Or.inl rfl) rfl rfl hspend hcdp hcount rfl hleaf⟩

/-- The farm's stamps, among the curve primitives. -/
def unitFarm (hK : K.Ideal) : ReceiptController (curveProofs K).toKeccak := farmReceipts hK (etherFarm K) 1

/-- The farm stamps the receipt. -/
theorem unitFarm_stamps (hK : K.Ideal) : ∃ t, (unitFarm hK).Hears 0 (bondBatch K owner tree.currentRoot)
    (FarmController.construct 0 0) t ∧ (unitFarm hK).stamped t ((unitReceipt K owner).leaf K) = true := by
  have hleaf : (unitReceipt K owner).leaf K ≠ 0 := (unitReceipt K owner).leaf_ne_zero hK
  have hfilter : (bondBatch K owner tree.currentRoot).cdpMints.filter (fun m => m.controller = (unitFarm hK).address.val) =
      [bondMint K 1 (unitReceipt K owner)] := by
    have haddress : (unitFarm hK).address.val = 1 := rfl
    simp [bondBatch, plainBatch, bondMint, haddress]
  let t : FarmController.Storage := { FarmController.construct 0 0 with
    totalShares := 1, entryStamped := Function.update (fun _ => false) ((unitReceipt K owner).leaf K) true
    entryRps := Function.update (fun _ => 0) ((unitReceipt K owner).leaf K) 0 }
  have hmint : FarmController.onCdpMint (etherFarm K) ⟨5, 0⟩ [⟨etherId K, 1⟩] 0 (wordOfNat 1) ((unitReceipt K owner).leaf K)
      (FarmController.construct 0 0) = .ok () t := by
    simp [FarmController.onCdpMint, FarmController.accrue, FarmController.bondReceipt, FarmController.receiptSentinel,
      FarmController.construct, etherFarm, hleaf, FarmController.add, FarmController.mul, t]
  refine ⟨t, ⟨t, t, t, ?_, rfl, rfl, rfl⟩, ?_⟩
  · rw [hfilter]
    exact ⟨t, ⟨0, (unitReceipt K owner).leaf K, rfl, hmint⟩, rfl⟩
  · show t.entryStamped ((unitReceipt K owner).leaf K) = true
    simp [t]

/-- A run that bonds the unit: where `P` lets the bond pass, a world with its stamp is reached. -/
theorem reachable_bond (hK : K.Ideal) {P : ConfidentialPool.Storage → Receipt → Prop}
    (hP : ∀ tree, P (wrapped K tree) (unitReceipt K owner)) :
    ∃ (w : World (unitFarm hK)) (s : FarmController.Storage), Reachable (curveProofs K) (demoDeployment K) _ P w ∧
      w.controller = some s ∧ s.entryStamped ((unitReceipt K owner).leaf K) = true := by
  obtain ⟨tree, htree, hknown, hwrap⟩ := wrapBatch_ok K
  have hroot : tree.currentRoot ≠ 0 := by
    rw [htree.frontier.root_eq]
    exact noteRoot_ne_zero hK _
  have hroom : (wrapped K tree).notes.nextLeafIndex < 2 ^ 32 := by
    have hone : (wrapped K tree).notes.nextLeafIndex = 1 := htree.frontier.next_eq
    rw [hone]
    decide
  obtain ⟨i, path, hpath⟩ := exists_path (D := demoDeployment K) (s := wrapped K tree) htree hroom List.mem_cons_self
  have hproved := bondBatch_proved owner hroot hpath
  have hbonds := farmBond_unit owner hroot hpath
  obtain ⟨pool, hbond⟩ := bondBatch_ok owner htree hknown hroot
  obtain ⟨t, hhears, hstamp⟩ := unitFarm_stamps owner hK
  refine ⟨⟨pool, some t, 0⟩, t, ⟨⟨Storage.blank K 0 0, none, 0⟩, ⟨demo_deployed K, rfl⟩, ?_⟩, rfl, hstamp⟩
  have hregister : Step (curveProofs K) (demoDeployment K) (unitFarm hK) P ⟨Storage.blank K 0 0, none, 0⟩ ⟨registered K, none, 0⟩ :=
    .call demoEnv _ rfl rfl (registered_ok K)
  have hdeposit : Step (curveProofs K) (demoDeployment K) (unitFarm hK) P ⟨registered K, none, 0⟩ ⟨deposited K, none, 0⟩ :=
    .call { demoEnv with value := 10 ^ 10 } _ rfl rfl (deposited_ok K)
  have hnote : Step (curveProofs K) (demoDeployment K) (unitFarm hK) P ⟨deposited K, none, 0⟩ ⟨wrapped K tree, none, 0⟩ := by
    refine .settle demoEnv (.settle (wrapBatch K) [[]]) (noSpend K) [K.hash []] [.wrap (unitWrap K)] rfl rfl (wrapBatch_proved K)
      ?_ ?_ hwrap ⟨nofun, nofun⟩
    · simp [Op.foreign]
    · simp [Op.bonds]
  have hdeploy : Step (curveProofs K) (demoDeployment K) (unitFarm hK) P ⟨wrapped K tree, none, 0⟩
      ⟨wrapped K tree, some (FarmController.construct 0 0), 0⟩ := .deploy rfl ⟨Nat.two_pow_pos 64, 0, rfl⟩
  refine .tail (.tail (.tail (.tail (.single hregister) hdeposit) hnote) hdeploy) ?_
  refine .settle demoEnv (.settle (bondBatch K owner tree.currentRoot) [[]]) (ownLane (demoDeployment K) (wrapped K tree))
    [K.hash []] [.farmBond (unitBond K owner i path)] rfl rfl hproved ?_ ?_ hbond hhears
  · simp [Op.foreign]
  · intro op hop r hr hfarm
    obtain rfl := List.mem_singleton.1 hop
    have hbonds' : Op.bonds (curveProofs K) (ownLane (demoDeployment K) (wrapped K tree)) (.farmBond (unitBond K owner i path)) =
        some (unitReceipt K owner) := congrArg (Option.map Prod.fst) hbonds
    obtain rfl := Option.some.inj (hbonds'.symm.trans hr)
    exact hP tree

end SettleGuest

open SettleGuest

/-- A farm of a deployed pool holds one unit for the owner of a key, and lets go of it. -/
theorem farm_position_exits_unit : ∃ (w : World (unitFarm codeKeccak_ideal)) (s : FarmController.Storage),
    w.controller = some s ∧ s.entryStamped ((unitReceipt codeKeccak secpG.x).leaf codeKeccak) = true ∧
    w.AllExit (demoDeployment codeKeccak) := by
  obtain ⟨w, s, hw, hs, hstamp⟩ := reachable_bond secpG.x codeKeccak_ideal
    (P := Sane (curveProofs codeKeccak)) fun _ => ⟨xOnly_secpG, rfl⟩
  exact ⟨w, s, hs, hstamp, (farm_position_exits (C := curveProofs codeKeccak) codeKeccak_ideal (D := demoDeployment codeKeccak)
    rfl).1 (etherFarm codeKeccak) 1 w rfl hw⟩

/-- A bond under the word 0, which no signature can be under, is taken and stamped: its receipt has no exit. -/
theorem keyless_position_stuck : ¬ ∀ w : World (unitFarm codeKeccak_ideal),
    Reachable (curveProofs codeKeccak) (demoDeployment codeKeccak) _ (fun _ _ => True) w →
    w.AllExit (demoDeployment codeKeccak) := by
  intro hall
  obtain ⟨w, s, hw, hs, hstamp⟩ := reachable_bond 0 codeKeccak_ideal (P := fun _ _ => True) fun _ => trivial
  obtain ⟨r, hleaf, -, -, hkey, -⟩ := hall w hw s hs _ hstamp
  obtain rfl := Receipt.leaf_injective codeKeccak_ideal hleaf
  exact not_xOnly_zero hkey

end Tacit
