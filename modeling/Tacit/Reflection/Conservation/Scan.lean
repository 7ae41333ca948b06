import Tacit.Reflection.Conservation.Liquidity
import Tacit.Reflection.Conservation.Swaps
/-!
# No inflation over a transaction

Every branch of the dispatch brings back at most the spends; a fresh member cross-out is the one source of new value.
-/
namespace Tacit

open Prog

/-! ## Cross-outs, and what moves no value -/

section Crossout

variable {G : BatchCrypto} {B : Chain} {ctx : ScanCtx} {V : Word → Nat} {a : Word} {s : ScanReflection}

/-- The transaction mints a member of the cross-out set `X` whose claim is not in `Y`. -/
def FreshCrossout (K : Keccak) (X Y : List Word) (tx : Tx) (asset cx cy : Word) : Prop :=
  ∃ claimId, tx.envelope = some (.crossoutMint asset claimId cx cy) ∧
    ethCrossoutLeaf K claimId (btcNoteLeaf K asset cx cy (tx.outputAuth 0)) asset ∈ X ∧ claimId ∉ Y

theorem foldCrossout_mints (hK : G.toKeccak.Ideal) {asset claimId cx cy root outpoint auth : Word} {n : Nat} {X Y : List Word}
    (hX : root ≠ 0 → ImtSet G.toKeccak root n X)
    (hY : ImtSet G.toKeccak s.consumedCrossoutRoot s.consumedCrossoutCount Y) {w : CrossoutWitness} :
    wp True (foldCrossout G.toCrypto asset claimId cx cy root outpoint auth w) s (fun _ t => t = s)
      (fun _ t => t = s ∨ (ethCrossoutLeaf G.toKeccak claimId (btcNoteLeaf G.toKeccak asset cx cy auth) asset ∈ X ∧ claimId ∉ Y ∧
        t.value G.toCrypto V a = s.value G.toCrypto V a + amount a asset (V (commitmentHash G.toKeccak cx cy)))) := by
  simp only [foldCrossout, wp_bind, wp_check, wp_orPanic, wp_ite, wp_pure, implies_true, true_and]
  intro _ _ h0 isReal hreal
  refine ⟨fun _ => Or.inl trivial, fun htrue => ?_⟩
  have hmem := (ethCrossoutImt_iff hK (hX h0) (hK.kn_ne_zero _) hreal).1 (by simpa using htrue)
  refine wp_mono wp_mintCrossout id (fun _ _ h => h.elim) fun _ t ht => ?_
  rcases ht with ⟨-, -, rfl⟩ | ⟨r, p, hr, -, hlive, rfl⟩
  · exact Or.inl rfl
  · refine Or.inr ⟨hmem, (hY.insert hK hr).1.2, ?_⟩
    rw [ScanReflection.value_eq, ScanReflection.value_eq]
    dsimp only [ScanReflection.withNote]
    rw [mapsValue_live_set hlive]
    rfl

theorem fixes_foldSpentOrMember {nu : Word} {w : SpentInsert} :
    Fixes (ScanReflection.value G.toCrypto V a) (foldSpentOrMember G nu w) := by
  refine Within.get.bind fun _ => Within.ite (fun _ => Within.assert) fun _ => Within.expect ?_
  exact Within.get.bind fun _ => Within.orThrow.bind fun _ => Within.modify fun _ => rfl

theorem fixes_foldBurn {K : Keccak} {burnId dest : Word} {w : BurnInsert} :
    Fixes (ScanReflection.value G.toCrypto V a) (foldBurn K burnId dest w) :=
  Within.get.bind fun _ => Within.orThrow.bind fun _ => Within.modify fun _ => rfl

theorem fixes_foldPendingDeposit {K : Keccak} {outpoint record : Word} {w : BurnInsert} :
    Fixes (ScanReflection.value G.toCrypto V a) (foldPendingDeposit K outpoint record w) :=
  Within.get.bind fun _ => Within.orThrow.bind fun _ => Within.modify fun _ => rfl

theorem fixes_foldNoteAppend {K : Keccak} {leaf : Word} {path : List Word} :
    Fixes (ScanReflection.value G.toCrypto V a) (foldNoteAppend K leaf path) :=
  Within.get.bind fun _ => Within.orThrow.bind fun _ => Within.modify fun _ => rfl

theorem fixes_depositVerdict {asset nu : Word} {burned : OutPoint} {w : DepositWitness} :
    Fixes (ScanReflection.value G.toCrypto V a) (depositVerdict G B ctx asset nu burned w) := by
  unfold depositVerdict
  split
  · exact Within.pure
  · refine Within.get.bind fun u => Within.ite (fun _ => Within.assert.bind fun _ => Within.pure) fun _ => Within.assert.bind fun _ => ?_
    split
    · exact Within.pure
    · exact Within.assert.bind fun _ => Within.ite (fun _ => Within.pure) fun _ => Within.pure

theorem fixes_recordDeposit {leaf burnId dest : Word} {w : DepositWitness} :
    Fixes (ScanReflection.value G.toCrypto V a) (recordDeposit G leaf burnId dest w) := by
  refine Within.get.bind fun u => Within.ite (fun _ => Within.assert) fun _ => ?_
  exact (Within.expect fixes_foldNoteAppend).bind fun _ => Within.expect fixes_foldBurn

theorem fixes_foldBurnDeposit {asset nu dest target : Word} {burned : OutPoint} {w : DepositWitness} :
    Fixes (ScanReflection.value G.toCrypto V a) (foldBurnDeposit G B ctx asset nu dest target burned w) := by
  refine fixes_depositVerdict.bind fun verdict => Within.ite (fun _ => Within.pure) fun _ => ?_
  exact fixes_foldSpentOrMember.bind fun _ => fixes_recordDeposit.bind fun _ => Within.pure

/-- A burn retires and records; it makes no note live. -/
theorem fixes_scanBurn {tx : Tx} {w : TxWitness} {spends : List DetectedSpend} {asset nu dest target : Word} :
    Fixes (ScanReflection.value G.toCrypto V a) (scanBurn G B ctx tx w spends asset nu dest target) := by
  unfold scanBurn
  split
  · refine Within.ite (fun _ => Within.get.bind fun _ => ?_) fun _ => Within.pure
    exact Within.ite (fun _ => Within.assert) fun _ => Within.expect fixes_foldBurn
  · refine Within.assert.bind fun _ => ?_
    split
    · exact Within.pure
    · refine fixes_foldBurnDeposit.bind fun _ => ?_
      exact Within.ite (fun _ => Within.expect fixes_foldPendingDeposit) fun _ => Within.pure
  · exact Within.pure

theorem fixes_foldCbtcLock {asset cx cy : Word} {tx : Tx} {vout : U 32} :
    Fixes (ScanReflection.value G.toCrypto V a) (foldCbtcLock G.toCrypto asset cx cy tx vout) := by
  refine Within.check.bind fun _ => Within.check.bind fun _ => Within.orThrow.bind fun _ => Within.check.bind fun _ => ?_
  refine Within.check.bind fun _ => Within.get.bind fun _ => Within.check.bind fun _ => ?_
  exact Within.bind (Within.modify fun _ => rfl) fun _ => Within.pure

theorem fixes_foldEthMessage {msgId record root : Word} {w : EthMsgWitness} :
    Fixes (ScanReflection.value G.toCrypto V a) (foldEthMessage G.toCrypto msgId record root w) := by
  refine Within.check.bind fun _ => Within.check.bind fun _ => Within.get.bind fun _ => ?_
  refine Within.ite (fun _ => Within.assert) fun _ => ?_
  exact Within.orPanic.bind fun _ => Within.modify fun _ => rfl

end Crossout

/-! ## One transaction -/

section Scan

variable {G : BatchCrypto} {B : Chain} {ctx : ScanCtx} {V : Word → Nat} {a : Word} {s : ScanReflection}

theorem spends_of_outpoints {spends : List DetectedSpend} : ∀ {ops : List OutPoint} {l : List DetectedSpend},
    (ops.mapM fun op => spends.find? fun d => decide (d.prev = op)) = some l → l ⊆ spends ∧ l.map (·.prev) = ops
  | [], l, h => by cases h; simp
  | op :: ops, l, h => by
    simp only [List.mapM_cons, Option.bind_eq_bind, Option.bind_eq_some_iff, Option.pure_def, Option.some.injEq] at h
    obtain ⟨d, hop, ds, hds, rfl⟩ := h
    obtain ⟨hsub, hprev⟩ := spends_of_outpoints hds
    have hop' := List.find?_some hop
    exact ⟨List.cons_subset.2 ⟨List.mem_of_find?_eq_some hop, hsub⟩, by simpa [hprev] using hop'⟩

theorem kernelSpends_sub {spends : List DetectedSpend} (hd : Detected G.toKeccak spends) {tx : Tx} (hnd : tx.inputs.Nodup)
    (e : CxferEnvelope) : kernelSpends tx e spends ⊆ spends ∧ ((kernelSpends tx e spends).map (·.prev)).Nodup := by
  unfold kernelSpends
  split
  · exact ⟨fun _ h => h, hd.nodup⟩
  · rename_i count _
    split
    · simp
    · cases hm : (((tx.inputs.drop 1).take count).mapM fun op => spends.find? fun d => decide (d.prev = op)) with
      | none => simp
      | some l =>
        obtain ⟨hsub, hprev⟩ := spends_of_outpoints hm
        refine ⟨hsub, ?_⟩
        simp only [Option.getD_some, hprev]
        exact hnd.sublist ((List.take_sublist ..).trans (List.drop_sublist ..))

section Transfers

variable (hG : Sound G V) {spends : List DetectedSpend} (hd : Detected G.toKeccak spends) {tx : Tx} {w : TxWitness}

include hG hd

theorem scanCxfer_gains (hnd : tx.inputs.Nodup) {e : CxferEnvelope} :
    wp True (scanCxfer G tx w spends e) s (fun _ _ => True)
      (fun _ t => t.value G.toCrypto V a ≤ s.value G.toCrypto V a + credit V a spends) := by
  obtain ⟨hsub, hnd'⟩ := kernelSpends_sub hd hnd e
  unfold scanCxfer
  refine scanTransfer_gains hd hsub hnd' ?_
  intros
  exact foldCxferTagged_adds hG

theorem scanCxferBound_gains {e : CxferBoundEnvelope} :
    wp True (scanCxferBound G ctx tx w spends e) s (fun _ _ => True)
      (fun _ t => t.value G.toCrypto V a ≤ s.value G.toCrypto V a + credit V a spends) := by
  unfold scanCxferBound
  refine scanTransfer_gains hd (fun _ h => h) hd.nodup ?_
  intros
  exact foldCxferTagged_adds hG

theorem scanBid_gains {e : BidEnvelope} :
    wp True (scanBid G tx w spends e) s (fun _ _ => True)
      (fun _ t => t.value G.toCrypto V a ≤ s.value G.toCrypto V a + credit V a spends) := by
  unfold scanBid
  refine scanTransfer_gains hd (fun _ h => h) hd.nodup ?_
  intros
  exact foldCxferTagged_adds hG

end Transfers

/-- The value of the live notes a transaction spends. -/
def spentValue (K : Keccak) (V : Word → Nat) (a : Word) (s : ScanReflection) (inputs : List OutPoint) : Nat :=
  (inputs.map fun op => ((s.live.get (outpointKey K op)).map (noteValue V a)).getD 0).sum

theorem spentValue_erase {K : Keccak} (hK : K.Ideal) {op : OutPoint} {ins : List OutPoint} (hop : op ∉ ins) :
    spentValue K V a { s with live := s.live.erase (outpointKey K op) } ins = spentValue K V a s ins := by
  unfold spentValue
  congr 1
  refine List.map_congr_left fun x hx => ?_
  have hne : outpointKey K op ≠ outpointKey K x := fun h => hop (outpointKey_inj hK h ▸ hx)
  simp [hne]

theorem scanTxSpends_credit {C : Crypto} (hK : C.toKeccak.Ideal) (cb : Word) : ∀ {ins : List OutPoint}
    {o : List (Word × Word)} {s t : ScanReflection} {spends : List DetectedSpend}, ins.Nodup →
    scanTxSpends C cb ins o s = .ok spends t → credit V a spends = spentValue C.toKeccak V a s ins
  | [], o, s, t, spends, _, h => by
    obtain ⟨rfl, rfl⟩ := pure_eq_ok.1 h
    rfl
  | op :: ins, o, s, t, spends, hnd, h => by
    obtain ⟨hop, hnd⟩ := List.nodup_cons.1 hnd
    unfold scanTxSpends at h
    simp only [bind_eq_ok, get_eq_ok] at h
    obtain ⟨_, s, ⟨rfl, rfl⟩, h⟩ := h
    cases hl : s.live.get (outpointKey C.toKeccak op) with
    | none =>
      rw [hl] at h
      rw [scanTxSpends_credit hK cb hnd h]
      simp [spentValue, hl]
    | some n =>
      rw [hl] at h
      cases o with
      | nil => cases h
      | cons xy o =>
        obtain ⟨cx, cy⟩ := xy
        simp only [bind_eq_ok, orPanic_eq_ok, pure_eq_ok, liveRemove, get_eq_ok, modify_eq_ok] at h
        obtain ⟨nu, _, ⟨-, rfl⟩, _, u, ⟨_, _, ⟨rfl, rfl⟩, _, _, ⟨-, rfl⟩, rfl⟩, ds, t', hrest, rfl, rfl⟩ := h
        have ih := scanTxSpends_credit hK cb hnd hrest
        rw [spentValue_erase hK hop] at ih
        simp only [credit, spentValue, List.map_cons, List.sum_cons, hl, Option.map_some, Option.getD_some] at ih ⊢
        rw [ih]

/-- A dispatch brings back at most the spends, unless it mints a fresh cross-out. -/
theorem scanEnvelope_gains (hK : G.toKeccak.Ideal) (hG : Sound G V) {tx : Tx} (hnd : tx.inputs.Nodup) {n : Nat} {X Y : List Word}
    (hX : ctx.crossoutSetRoot ≠ 0 → ImtSet G.toKeccak ctx.crossoutSetRoot n X)
    (hY : ImtSet G.toKeccak s.consumedCrossoutRoot s.consumedCrossoutCount Y) {spends : List DetectedSpend}
    (hd : Detected G.toKeccak spends) {w : TxWitness} :
    wp True (scanEnvelope G B ctx tx w spends) s (fun _ _ => True)
      (fun _ t => t.value G.toCrypto V a ≤ s.value G.toCrypto V a + credit V a spends ∨
        ∃ asset cx cy, FreshCrossout G.toKeccak X Y tx asset cx cy ∧
          t.value G.toCrypto V a = s.value G.toCrypto V a + amount a asset (V (commitmentHash G.toKeccak cx cy))) := by
  have hself : ∀ {m : Guest Unit}, Fixes (ScanReflection.value G.toCrypto V a) m → wp True m s (fun _ _ => True)
      (fun _ t => t.value G.toCrypto V a ≤ s.value G.toCrypto V a + credit V a spends) := by
    intro m hm
    refine wp_mono (hm s) id (fun _ _ _ => trivial) fun _ t ht => ?_
    unfold Same at ht
    omega
  have hswallow : ∀ {α : Type} {m : Fold α}, wp True m s (fun _ t => t.value G.toCrypto V a ≤ s.value G.toCrypto V a)
      (fun _ t => t.value G.toCrypto V a ≤ s.value G.toCrypto V a) → wp True (swallow m) s (fun _ _ => True)
      (fun _ t => t.value G.toCrypto V a ≤ s.value G.toCrypto V a + credit V a spends) := by
    intro α m hm
    simp only [swallow, wp_bind, wp_attempt, wp_pure]
    exact wp_mono hm id (fun _ _ h => by omega) fun _ _ h => by omega
  have hleft : ∀ {m : Guest Unit}, wp True m s (fun _ _ => True)
      (fun _ t => t.value G.toCrypto V a ≤ s.value G.toCrypto V a + credit V a spends) → wp True m s (fun _ _ => True)
      (fun _ t => t.value G.toCrypto V a ≤ s.value G.toCrypto V a + credit V a spends ∨
        ∃ asset cx cy, FreshCrossout G.toKeccak X Y tx asset cx cy ∧
          t.value G.toCrypto V a = s.value G.toCrypto V a + amount a asset (V (commitmentHash G.toKeccak cx cy))) :=
    fun hm => wp_mono hm id (fun _ _ h => h) fun _ _ h => Or.inl h
  have hrefl : spends ⊆ spends := fun _ h => h
  unfold scanEnvelope
  cases he : tx.envelope with
  | none => exact hleft (hself Within.pure)
  | some e =>
    cases e with
    | cetch _ _ _ => exact hleft (hself Within.pure)
    | cmint _ => exact hleft (hself Within.pure)
    | cbtcRedeem _ _ _ => exact hleft (hself Within.pure)
    | burn asset nu dest target => exact hleft (hself fixes_scanBurn)
    | cbtcLock asset lockVout cx cy => exact hleft (hself ((Within.attempt fixes_foldCbtcLock).bind fun _ => Within.pure))
    | ethCall msgId ns sender destChain payloadHash payload =>
      refine hleft (hself (Within.ite (fun _ => ?_) fun _ => Within.pure))
      exact (Within.attempt fixes_foldEthMessage).bind fun _ => Within.pure
    | cxfer e => exact hleft (scanCxfer_gains hG hd hnd)
    | cxferBound e => exact hleft (scanCxferBound_gains hG hd)
    | bid e => exact hleft (scanBid_gains hG hd)
    | swapVar e => exact hleft (scanSwapVar_gains hG hd hrefl)
    | swapRoute e => exact hleft (scanSwapRoute_gains hG hd hrefl)
    | swapBatch e =>
      refine hleft ?_
      simp only [scanSwapBatch, swallow, wp_bind, wp_get, wp_attempt, wp_pure]
      exact foldSwapBatch_gains hG hd
    | lpAdd e => exact hleft (scanLpAdd_gains hG hd)
    | lpRemove e => exact hleft (scanLpRemove_gains hG hd)
    | farmInit e => exact hleft (scanFarmInit_gains hG hd hrefl)
    | lpBond e => exact hleft (scanLpBond_gains hG hd)
    | lpHarvest e => exact hleft (wp_mono (scanLpHarvest_gains (a := a) hG) id (fun _ _ h => h) fun _ _ h => by omega)
    | farmRefund e => exact hleft (hswallow (foldFarmRefund_gains hG))
    | lpUnbond e => exact hleft (hswallow (foldLpUnbond_gains hG))
    | protocolFeeClaim e => exact hleft (hswallow (foldProtocolFeeClaim_gains hG))
    | crossoutMint asset claimId cx cy =>
      simp only [swallow, wp_bind, wp_attempt, wp_pure]
      refine wp_mono (foldCrossout_mints (V := V) (a := a) hK hX hY) id (fun _ t ht => ?_) fun _ t ht => ?_
      · rw [ht]
        exact Or.inl (by omega)
      · rcases ht with rfl | ⟨hmem, hfresh, hv⟩
        · exact Or.inl (by omega)
        · exact Or.inr ⟨asset, cx, cy, ⟨claimId, he, hmem, hfresh⟩, hv⟩

theorem issued_eq_zero {C : Crypto} (hlp : ∀ pid, ammDeriveLpAssetId C pid ≠ a) : s.issued C a = 0 := by
  unfold ScanReflection.issued SortedMap.total SortedMap.totalL
  rw [List.sum_eq_zero]
  intro x hx
  obtain ⟨y, -, rfl⟩ := List.mem_map.1 hx
  simp [sharesIssued, amount, hlp]

theorem bonded_nonneg : 0 ≤ s.bonded a := SortedMap.total_nonneg fun _ _ => Int.natCast_nonneg _

theorem bonded_eq_zero (h : ∀ id st, s.farmRewards.get id = some st → st.lpAsset ≠ a) : s.bonded a = 0 := by
  unfold ScanReflection.bonded SortedMap.total SortedMap.totalL
  rw [List.sum_eq_zero]
  intro x hx
  obtain ⟨y, hy, rfl⟩ := List.mem_map.1 hx
  simp [sharesBonded, amount, h y.1 y.2 (SortedMap.get_eq_some_iff.2 hy)]

/-- **No inflation over a transaction.** From any state, on any witness stream that does not panic and for any asset:
what is held, with the bonded shares and against the issued ones, does not grow, except by the value of a fresh
member cross-out less what its transaction spends. For an asset that is no pool's share this is what is held. -/
theorem scanTx_conserves (hK : G.toKeccak.Ideal) (hG : Sound G V) {tx : Tx} (hnd : tx.inputs.Nodup) {n : Nat} {X Y : List Word}
    (hX : ctx.crossoutSetRoot ≠ 0 → ImtSet G.toKeccak ctx.crossoutSetRoot n X)
    (hY : ImtSet G.toKeccak s.consumedCrossoutRoot s.consumedCrossoutCount Y) {w : TxWitness} {t : ScanReflection}
    (h : scanTx G B ctx tx w s = .ok () t) (a : Word) :
    (t.value G.toCrypto V a ≤ s.value G.toCrypto V a ∨ ∃ asset cx cy, FreshCrossout G.toKeccak X Y tx asset cx cy ∧
      t.value G.toCrypto V a + spentValue G.toKeccak V a s tx.inputs =
        s.value G.toCrypto V a + amount a asset (V (commitmentHash G.toKeccak cx cy))) ∧
    ((∀ pid, ammDeriveLpAssetId G.toCrypto pid ≠ a) → (∀ id st, s.farmRewards.get id = some st → st.lpAsset ≠ a) →
      t.held V a ≤ s.held V a ∨ ∃ asset cx cy, FreshCrossout G.toKeccak X Y tx asset cx cy ∧
        t.held V a + spentValue G.toKeccak V a s tx.inputs ≤
          s.held V a + amount a asset (V (commitmentHash G.toKeccak cx cy))) := by
  obtain ⟨spends, u, hvin, henv⟩ := bind_eq_ok.1 h
  obtain ⟨hd, hu⟩ := scanVin_takes (V := V) (a := a) hnd hvin
  have hcredit : credit V a spends = spentValue G.toKeccak V a s tx.inputs := by
    obtain ⟨ds, v, hscan, hrest⟩ := bind_eq_ok.1 hvin
    simp only [bind_eq_ok, pure_eq_ok] at hrest
    obtain ⟨_, _, -, _, _, -, _, _, -, rfl, -⟩ := hrest
    exact scanTxSpends_credit hK ctx.chainBinding hnd (expect_eq_ok.1 hscan)
  have hYu : ImtSet G.toKeccak u.consumedCrossoutRoot u.consumedCrossoutCount Y := by
    have h1 := Within.of_ok (R := Same ScanReflection.consumedCrossoutRoot)
      (fixes_scanVin (fun _ _ => rfl) (fun _ _ _ => rfl) (fun _ _ _ => rfl) tx w) hvin
    have h2 := Within.of_ok (R := Same ScanReflection.consumedCrossoutCount)
      (fixes_scanVin (fun _ _ => rfl) (fun _ _ _ => rfl) (fun _ _ _ => rfl) tx w) hvin
    rw [h1, h2]
    exact hY
  have hmain : t.value G.toCrypto V a ≤ s.value G.toCrypto V a ∨ ∃ asset cx cy, FreshCrossout G.toKeccak X Y tx asset cx cy ∧
      t.value G.toCrypto V a + spentValue G.toKeccak V a s tx.inputs =
        s.value G.toCrypto V a + amount a asset (V (commitmentHash G.toKeccak cx cy)) := by
    rw [← hcredit]
    have hdispatch := scanEnvelope_gains (B := B) (V := V) (a := a) hK hG hnd hX hYu hd (w := w)
    rcases wp_iff_ok.1 hdispatch () t henv with hle | ⟨asset, cx, cy, hfresh, hv⟩
    · exact Or.inl (by omega)
    · exact Or.inr ⟨asset, cx, cy, hfresh, by omega⟩
  refine ⟨hmain, fun hlp hfarms => ?_⟩
  have hs : s.value G.toCrypto V a = s.held V a := by
    rw [ScanReflection.value, issued_eq_zero hlp, bonded_eq_zero hfarms]
    omega
  have ht : t.held V a ≤ t.value G.toCrypto V a := by
    have := bonded_nonneg (a := a) (s := t)
    rw [ScanReflection.value, issued_eq_zero hlp]
    omega
  rcases hmain with hle | ⟨asset, cx, cy, hfresh, hv⟩
  · exact Or.inl (by omega)
  · exact Or.inr ⟨asset, cx, cy, hfresh, by omega⟩

end Scan

end Tacit
