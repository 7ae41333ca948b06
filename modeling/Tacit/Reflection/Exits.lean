import Tacit.Reflection.Independence
/-!
# Exits that a prover can omit, and exits that it cannot

A harvest, an unbond, a protocol-fee claim, a farm refund and a cross-out mint spend no live note: they pay out
of the state. For the claim, the refund and the cross-out the only prover witnesses are append paths and set
proofs whose failure aborts, so every stream that does not panic ends in one state. A harvest and an unbond
also read the membership path of a farm receipt, and its failure is an `Err` that the scan drops: a stream with
a bad path skips the exit and goes on.
-/
namespace Tacit

open Prog

/-- The operations that pay out of the state and spend no live note. -/
def Envelope.isExit : Envelope → Bool
  | .lpHarvest _ | .lpUnbond _ | .protocolFeeClaim _ | .farmRefund _ | .crossoutMint _ _ _ _ => true
  | _ => false

/-- The exits that prove the membership of a farm receipt. -/
def Envelope.readsReceipt : Envelope → Bool
  | .lpHarvest _ | .lpUnbond _ => true
  | _ => false

/-- The exit took place: every exit appends its one note, a skipped one appends none. -/
def Exited (s t : ScanReflection) : Prop := t.noteCount = s.noteCount + 1

/-! ## Exits that bind the prover -/

section Agrees

variable {C : Crypto} (hK : C.toKeccak.Ideal) {s : ScanReflection}

include hK

theorem agrees_foldProtocolFeeClaim (e : ProtocolFeeClaimEnvelope) (claim : NoteDest) (p p' : List Word) :
    Agrees s (foldProtocolFeeClaim C e claim p) (foldProtocolFeeClaim C e claim p') := by
  unfold foldProtocolFeeClaim
  refine Agrees.seq fun _ _ _ => Agrees.seq fun _ _ _ => Agrees.seq fun _ _ _ => Agrees.seq fun _ _ _ => ?_
  refine Agrees.seq fun _ _ _ => Agrees.seq fun _ _ _ => Agrees.seq fun _ _ _ => Agrees.seq fun _ _ _ => ?_
  refine Agrees.seq fun _ _ _ => Agrees.seq fun _ _ _ => Agrees.seq fun _ _ _ => ?_
  exact (agrees_onboardNote hK ..).bind fun _ _ _ _ => Agrees.refl

theorem agrees_foldHarvest (farmId : Word) (amount : U 64) (r outpoint : Word) (p p' : List Word) (spk : Bytes) :
    Agrees s (foldHarvest C farmId amount r outpoint p spk) (foldHarvest C farmId amount r outpoint p' spk) := by
  unfold foldHarvest
  refine Agrees.seq fun _ _ _ => Agrees.seq fun _ _ _ => Agrees.seq fun _ _ _ => Agrees.seq fun _ _ _ => ?_
  exact Agrees.seq fun _ _ _ => (agrees_onboardNote hK ..).bind fun _ _ _ _ => Agrees.refl

theorem agrees_foldFarmRefund (e : FarmRefundEnvelope) (outpoint : Word) (p p' : List Word) (spk : Bytes) :
    Agrees s (foldFarmRefund C e outpoint p spk) (foldFarmRefund C e outpoint p' spk) := by
  unfold foldFarmRefund
  refine Agrees.seq fun _ _ _ => Agrees.seq fun _ _ _ => Agrees.seq fun _ _ _ => Agrees.seq fun _ _ _ => ?_
  exact Agrees.seq fun _ _ _ => agrees_foldHarvest hK ..

theorem agrees_foldCrossout {asset claimId cx cy root outpoint auth : Word} {n : Nat} {X Y : List Word}
    (hX : root ≠ 0 → ImtSet C.toKeccak root n X)
    (hY : ImtSet C.toKeccak s.consumedCrossoutRoot s.consumedCrossoutCount Y) (w w' : CrossoutWitness) :
    Agrees s (foldCrossout C asset claimId cx cy root outpoint auth w)
      (foldCrossout C asset claimId cx cy root outpoint auth w') := by
  unfold foldCrossout
  refine Agrees.seq fun _ s₁ h₁ => Agrees.seq fun _ s₂ h₂ => Agrees.seq fun _ s₃ h₃ => ?_
  obtain ⟨-, rfl⟩ := check_eq_ok.1 h₁
  obtain ⟨-, rfl⟩ := check_eq_ok.1 h₂
  obtain ⟨h0, rfl⟩ := check_eq_ok.1 h₃
  refine (Agrees.orPanic fun b b' h h' => ?_).bind fun isReal s₄ h₄ _ => ?_
  · rw [Bool.eq_iff_iff, ethCrossoutImt_iff hK (hX h0) (hK.kn_ne_zero _) h, ethCrossoutImt_iff hK (hX h0) (hK.kn_ne_zero _) h']
  obtain ⟨-, rfl⟩ := orPanic_eq_ok.1 h₄
  refine Agrees.ite (fun _ => Agrees.refl) fun _ => Agrees.of_wp wp_mintCrossout wp_mintCrossout ?_
  rintro _ t _ t' (⟨-, hm, rfl⟩ | ⟨r, p, hr, hp, -, rfl⟩) (⟨-, hm', rfl⟩ | ⟨r', p', hr', hp', -, rfl⟩)
  · exact ⟨rfl, rfl⟩
  · have hn := (hY.insert hK hr').1
    exact absurd (hY.mem hK hm) (by simp [hn.1, hn.2])
  · have hn := (hY.insert hK hr).1
    exact absurd (hY.mem hK hm') (by simp [hn.1, hn.2])
  · rw [hY.insert_unique hK hr hr', append_unique hK hp hp']
    exact ⟨rfl, rfl⟩

end Agrees

/-! ## Exits that do not -/

/-- Every leaf has a path that is not its own. -/
theorem exists_bad_path {K : Keccak} (hK : K.Ideal) (leaf root : Word) (i : Nat) :
    ∃ p : List Word, p.length = 32 ∧ keccakMerkleVerify K leaf i p root = false := by
  by_contra hno
  have hall : ∀ p : List Word, p.length = 32 → Merkle.rootFrom K.k2 leaf i p = root := by
    intro p hp
    by_contra hr
    refine hno ⟨p, hp, Bool.eq_false_iff.2 fun hv => hr (keccakMerkleVerify_iff.1 hv).2⟩
  have h0 := hall (List.replicate 32 0) (by simp)
  have h1 := hall (List.replicate 32 (wordOfNat 1)) (by simp)
  have := (Merkle.rootFrom_inj hK.k2_injective (by simp) (h0.trans h1.symm)).2
  exact absurd this (by decide)

section Skips

variable {C : Crypto} (hK : C.toKeccak.Ideal) (s : ScanReflection)

include hK

theorem foldLpHarvest_skips (e : LpHarvestEnvelope) (i : Nat) (spk : Bytes) : ∃ p : List Word, p.length = 32 ∧
    wp False (foldLpHarvest C e i p spk) s (fun _ t => t = s) (fun _ _ => False) := by
  cases hf : s.farmRewards.get e.farmId with
  | none => exact ⟨List.replicate 32 0, by simp, by simp [foldLpHarvest, hf]⟩
  | some st =>
    obtain ⟨p, hp, hbad⟩ := exists_bad_path hK (farmReceiptLeaf C.toKeccak e.farmId st.lpAsset e.shares e.ownerCommit
      e.oldNonce) s.poolRoot i
    exact ⟨p, hp, by simp [foldLpHarvest, hf, hbad]⟩

theorem foldLpUnbond_skips (e : LpUnbondEnvelope) (i : Nat) (w : SpentInsert) (outpoint : Word) (path : List Word)
    (spk : Bytes) : ∃ p : List Word, p.length = 32 ∧
    wp False (foldLpUnbond C e i p w outpoint path spk) s (fun _ t => t = s) (fun _ _ => False) := by
  cases hf : s.farmRewards.get e.farmId with
  | none => exact ⟨List.replicate 32 0, by simp, by simp [foldLpUnbond, hf]⟩
  | some st =>
    obtain ⟨p, hp, hbad⟩ := exists_bad_path hK (farmReceiptLeaf C.toKeccak e.farmId st.lpAsset e.shares e.ownerCommit
      e.nonce) s.poolRoot i
    exact ⟨p, hp, by simp [foldLpUnbond, receiptSpendRoot, hf, hbad]⟩

end Skips

/-! ## The scan -/

section Scan

variable {G : BatchCrypto} {B : Chain} {ctx : ScanCtx} {s : ScanReflection} {tx : Tx} {e : Envelope}

theorem noteCount_scanVin {w : TxWitness} {spends : List DetectedSpend} {u : ScanReflection}
    (h : scanVin G ctx tx w s = .ok spends u) : u.noteCount = s.noteCount :=
  Within.of_ok (R := Same ScanReflection.noteCount) (fixes_scanVin (fun _ _ => rfl) (fun _ _ _ => rfl) (fun _ _ _ => rfl) tx w) h

theorem swallow_of_err {α : Type} {m : Fold α} {err : String} {t : ScanReflection} (h : m s = .err err t) :
    swallow m s = .ok () t := by
  simp [swallow, h]

variable (hK : G.toKeccak.Ideal)

include hK

/-- A receipt exit is skipped by a stream that differs in one path. -/
theorem scanTx_skips (he : tx.envelope = some e) (hr : e.readsReceipt = true) {w : TxWitness} {t : ScanReflection}
    (h : scanTx G B ctx tx w s = .ok () t) :
    ∃ p t', p.length = 32 ∧ scanTx G B ctx tx { w with oldPath := p } s = .ok () t' ∧ ¬ Exited s t' := by
  obtain ⟨spends, u, hvin, -⟩ := bind_eq_ok.1 h
  have hcount := noteCount_scanVin hvin
  have hskip : ∃ p : List Word, p.length = 32 ∧
      scanEnvelope G B ctx tx { w with oldPath := p } spends u = .ok () u := by
    unfold scanEnvelope
    rw [he]
    cases e with
    | lpHarvest e =>
      obtain ⟨p, hp, hwp⟩ := foldLpHarvest_skips hK u e w.oldIndex (tx.outputScriptpubkey 1)
      obtain ⟨err, herr⟩ := err_of_wp hwp
      refine ⟨p, hp, ?_⟩
      simp [scanLpHarvest, succeeds, herr]
    | lpUnbond e =>
      obtain ⟨p, hp, hwp⟩ := foldLpUnbond_skips hK u e w.oldIndex w.receiptSpent (outpointKey G.toKeccak (tx.txid, 1))
        (w.path 0) (tx.outputScriptpubkey 1)
      obtain ⟨err, herr⟩ := err_of_wp hwp
      exact ⟨p, hp, swallow_of_err herr⟩
    | _ => cases hr
  obtain ⟨p, hp, henv⟩ := hskip
  refine ⟨p, u, hp, bind_eq_ok.2 ⟨spends, u, hvin, henv⟩, ?_⟩
  unfold Exited
  omega

/-- The other exits end in one state. -/
theorem agrees_exit {S : List Word} (hS : s.Spent G.toKeccak S) {n : Nat} {X Y : List Word}
    (hX : ctx.crossoutSetRoot ≠ 0 → ImtSet G.toKeccak ctx.crossoutSetRoot n X)
    (hY : ImtSet G.toKeccak s.consumedCrossoutRoot s.consumedCrossoutCount Y)
    (he : tx.envelope = some e) (hexit : e.isExit = true) (hr : e.readsReceipt = false) (w w' : TxWitness) :
    Agrees s (scanTx G B ctx tx w) (scanTx G B ctx tx w') := by
  refine (agrees_scanVin hK hS tx w w').bind fun spends u hu _ => ?_
  have hYu : ImtSet G.toKeccak u.consumedCrossoutRoot u.consumedCrossoutCount Y := by
    have h1 := Within.of_ok (R := Same ScanReflection.consumedCrossoutRoot)
      (fixes_scanVin (fun _ _ => rfl) (fun _ _ _ => rfl) (fun _ _ _ => rfl) tx w) hu
    have h2 := Within.of_ok (R := Same ScanReflection.consumedCrossoutCount)
      (fixes_scanVin (fun _ _ => rfl) (fun _ _ _ => rfl) (fun _ _ _ => rfl) tx w) hu
    rw [h1, h2]
    exact hY
  unfold scanEnvelope
  rw [he]
  cases e with
  | protocolFeeClaim e => exact agrees_swallow (agrees_foldProtocolFeeClaim hK ..)
  | farmRefund e => exact agrees_swallow (agrees_foldFarmRefund hK ..)
  | crossoutMint asset claimId cx cy => exact agrees_swallow (agrees_foldCrossout hK hX hYu _ _)
  | lpHarvest e => cases hr
  | lpUnbond e => cases hr
  | _ => cases hexit

end Scan

/-! ## An unbond, executed and omitted

A farm with one bonded position of one share, and the unbond its owner signed. -/

section Unbond

variable (K : Keccak)

def unbondFarm : FarmRewardState where
  rate := 0
  totalShares := 1
  rps := 0
  totalRewardDebt := 0
  lastHeight := 0
  launcherPubkey := []
  lpAsset := wordOfNat 9
  startHeight := 0
  endHeight := 1

def unbondEnvelope : LpUnbondEnvelope where
  farmId := wordOfNat 7
  ownerCommit := secpG.x
  nonce := 0
  shares := 1
  lpReturnR := 0
  unbonderSig := validSig

def unbondReceipt : Word := farmReceiptLeaf K (wordOfNat 7) (wordOfNat 9) 1 secpG.x 0

/-- The receipt is the only leaf of the note tree. -/
def unbondState : ScanReflection :=
  { ScanReflection.genesis K with
    poolRoot := keccakMerkleRoot K [unbondReceipt K]
    noteCount := 1
    farmRewards := SortedMap.empty.set (wordOfNat 7) unbondFarm
    farmEntries := SortedMap.empty.set (unbondReceipt K) 0 }

/-- The share note goes to output 1, a P2TR output of the owner. -/
def unbondTx : Tx where
  txid := wordOfNat 1
  inputs := []
  witness := []
  outputs := [(0, []), (546, [0x51, 0x20] ++ secpG.x.bytes)]
  envelope := some (.lpUnbond unbondEnvelope)

def unbondWitness (i : Nat) (oldPath : List Word) (spent : SpentInsert) (path : List Word) : TxWitness :=
  { spendWitness [] [] [path] with oldIndex := i, oldPath := oldPath, receiptSpent := spent }

variable {K}

theorem unbond_runs (hK : K.Ideal) : ∃ w t,
    scanTx (curveBatchCrypto K) emptyChain zeroCtx unbondTx w (unbondState K) = .ok () t ∧ Exited (unbondState K) t := by
  have hT : NoteTree K (keccakMerkleRoot K [unbondReceipt K]) 1 [unbondReceipt K] := by
    refine ⟨rfl, rfl, by simp, ?_⟩
    intro x hx
    rw [List.mem_singleton.1 hx]
    exact hK.kn_ne_zero _
  obtain ⟨i, oldPath, hmem⟩ := hT.exists_verify (List.mem_singleton_self (unbondReceipt K))
  have hfresh : farmReceiptNullifier K (unbondReceipt K) ∉ ([] : List Word) := by simp
  obtain ⟨spent, r, hr⟩ := (imtSet_empty (K := K)).exists_insert (by simp) (hK.kn_ne_zero _) hfresh
  obtain ⟨path, p, hp⟩ := hT.exists_append (by simp) (btcNoteLeaf K (wordOfNat 9) genH.x genH.y secpG.x)
  have hfarm : (unbondState K).farmRewards.get unbondEnvelope.farmId = some unbondFarm := by
    simp [unbondState, unbondEnvelope]
  have hentry : (unbondState K).farmEntries.get (unbondReceipt K) = some 0 := by simp [unbondState]
  have hnot : ¬ (!keccakMerkleVerify K (unbondReceipt K) i oldPath (keccakMerkleRoot K [unbondReceipt K])) = true := by
    simp [hmem]
  have hretire : unbondFarm.unbond 1 0 0 = some { unbondFarm with totalShares := 0 } := by decide
  have hspend : receiptSpendRoot (curveBatchCrypto K).toCrypto (unbondReceipt K) i oldPath spent (unbondState K) =
      .ok r (unbondState K) :=
    bind_eq_ok.2 ⟨_, _, get_eq_ok.2 ⟨rfl, rfl⟩, bind_eq_ok.2 ⟨(), _, check_eq_ok.2 ⟨hnot, rfl⟩,
      orThrow_eq_ok.2 ⟨hr, rfl⟩⟩⟩
  let s' : ScanReflection := { unbondState K with
    poolRoot := p, noteCount := 2
    live := SortedMap.empty.set (outpointKey K (wordOfNat 1, 1))
      ⟨commitmentHash K genH.x genH.y, wordOfNat 9, secpG.x, false⟩ }
  have hnote : onboardNote (curveBatchCrypto K).toCrypto (wordOfNat 9) ((curveBatchCrypto K).pedersenCommitCompressed 1 0)
      secpG.x (outpointKey K (wordOfNat 1, 1)) path "unbond: lp-return leaf" "unbond: lp-return hash" (unbondState K) =
      .ok () s' :=
    onboardNote_eq_ok.2 ⟨genH, p, curveCrypto_decompress_genH K, hp, SortedMap.get_empty _, rfl⟩
  have hfold : ∃ t, foldLpUnbond (curveBatchCrypto K).toCrypto unbondEnvelope i oldPath spent
      (outpointKey K (wordOfNat 1, 1)) path (unbondTx.outputScriptpubkey 1) (unbondState K) = .ok () t ∧
      t.noteCount = 2 := by
    refine ⟨{ s' with
      farmEntries := (unbondState K).farmEntries.erase (unbondReceipt K), spentRoot := r, spentCount := 2
      farmRewards := (unbondState K).farmRewards.set (wordOfNat 7) { unbondFarm with totalShares := 0 } }, ?_, rfl⟩
    unfold foldLpUnbond
    simp only [bind_eq_ok]
    refine ⟨_, _, get_eq_ok.2 ⟨rfl, rfl⟩, _, _, orThrow_eq_ok.2 ⟨hfarm, rfl⟩, _, _, orThrow_eq_ok.2 ⟨hentry, rfl⟩,
      (), _, check_eq_ok.2 ⟨?_, rfl⟩, r, _, hspend, (), _, check_eq_ok.2 ⟨by decide, rfl⟩, secpG.x, _,
      orThrow_eq_ok.2 ⟨by decide, rfl⟩, (), s', hnote, { unbondFarm with totalShares := 0 }, s',
      orThrow_eq_ok.2 ⟨hretire, rfl⟩, (), _, modify_eq_ok.2 rfl, ?_⟩
    · simp [curveBatchCrypto, curveCrypto, unbondEnvelope]
    · refine bind_eq_ok.2 ⟨_, _, get_eq_ok.2 ⟨rfl, rfl⟩, bind_eq_ok.2 ⟨_, _, orPanic_eq_ok.2 ⟨?_, rfl⟩, modify_eq_ok.2 rfl⟩⟩
      exact SortedMap.update_eq_some.2 ⟨⟨unbondFarm, hfarm⟩, rfl⟩
  obtain ⟨t, ht, hcount⟩ := hfold
  refine ⟨unbondWitness i oldPath spent path, t, ?_, hcount⟩
  have hvin : scanVin (curveBatchCrypto K) zeroCtx unbondTx (unbondWitness i oldPath spent path) (unbondState K) =
      .ok [] (unbondState K) := rfl
  refine bind_eq_ok.2 ⟨_, _, hvin, ?_⟩
  exact bind_eq_ok.2 ⟨.ok (), t, attempt_eq_ok.2 (Or.inr ⟨(), rfl, ht⟩), rfl⟩

end Unbond

end Tacit
