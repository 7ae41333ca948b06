import Tacit.Reflection.Conservation.Notes
/-!
# No inflation: liquidity and farms

An add deposits what two kernels cover and issues the shares it mints a note for; a removal burns shares against the
reserves it pays; a fee claim turns accrued shares into a note. A bond moves shares from notes into a farm, an unbond
back, and a harvest pays out of the treasury.
-/
namespace Tacit

open Prog

/-! ## Liquidity -/

section Liquidity

variable {G : BatchCrypto} {V : Word → Nat} {a : Word} {s : ScanReflection}

/-- The record of a pool after an add that was not refunded. -/
inductive LpMinted (s : ScanReflection) (pid : Word) (x y : LpSide) (variant : Nat) (p : PoolReserveState) : Prop
  | init (hv : variant = 1) (hnew : s.pools.get pid = none) (hassets : p.assetA = x.asset ∧ p.assetB = y.asset)
    (hA : p.reserveA = x.delta) (hB : p.reserveB = y.delta) (haccrued : p.protocolFeeAccrued = 0)
    (htotal : ammMinimumLiquidity < p.totalShares.val)
  | add (hv : variant = 0) (old : PoolReserveState) (minted : Nat) (hold : s.pools.get pid = some old) (hpos : 0 < minted)
    (hassets : p.assetA = x.asset ∧ p.assetB = y.asset) (hassets' : old.assetA = x.asset ∧ old.assetB = y.asset)
    (hA : p.reserveA.val = old.reserveA.val + x.delta.val) (hB : p.reserveB.val = old.reserveB.val + y.delta.val)
    (fee : Nat) (haccrued : p.protocolFeeAccrued.val = old.protocolFeeAccrued.val + fee)
    (htotal : p.totalShares.val = old.totalShares.val + fee + minted)

variable (hG : Sound G V)

include hG

theorem foldLpAdd_adds {e : LpAddEnvelope} {pid : Word} {x y : LpSide} {c0 : Bool} {height : U 64} {pA pB : List Word} :
    wp True (foldLpAdd G.toCrypto e pid x y c0 height pA pB) s (fun _ t => AddsNotes V a s 0 t)
      (fun _ t => x.kernelOk G.toCrypto e.variant pid e.shareAmount e.shareCsecp e.expiryHeight = true ∧
        y.kernelOk G.toCrypto e.variant pid e.shareAmount e.shareCsecp e.expiryHeight = true ∧
        (AddsNotes V a s (amount a x.asset x.delta.val + amount a y.asset y.delta.val) t ∨
          ∃ p, t = { s with pools := s.pools.set pid p } ∧ LpMinted s pid x y e.variant p)) := by
  simp only [foldLpAdd, wp_bind, wp_check, wp_ite, wp_get, wp_throw, wp_orThrow, wp_orPanic, AddsNotes.refl, implies_true, true_and]
  intro _ hkx hky
  simp only [Bool.not_eq_true', Bool.not_eq_false] at hkx hky
  refine ⟨fun hv _ => ⟨fun _ => ?_, fun hn => ?_⟩, fun _ => ⟨fun hv pool hpool hassets _ pool' hc minted hm => ⟨fun _ => ?_, fun hn => ?_⟩, trivial⟩⟩
  · exact wp_mono (lpRefund_adds hG) id (fun _ _ h => h) fun _ t ht => ⟨hkx, hky, Or.inl ht⟩
  · simp only [not_or, Bool.not_eq_true, poolInitMalformed, Bool.or_eq_false_iff, decide_eq_false_iff_not, Nat.not_le] at hn
    refine wp_insertPool fun hnew => ⟨hkx, hky, Or.inr ⟨_, rfl, .init hv hnew ⟨rfl, rfl⟩ rfl rfl rfl ?_⟩⟩
    show ammMinimumLiquidity < isqrt (x.delta.val * y.delta.val) % 2 ^ 64
    rw [Nat.mod_eq_of_lt (by omega)]
    omega
  · exact wp_mono (lpRefund_adds hG) id (fun _ _ h => h) fun _ t ht => ⟨hkx, hky, Or.inl ht⟩
  · intro rA hrA rB hrB total htotal
    obtain ⟨accrued, shares, k, fee, rfl, hacc, hsh⟩ := crystallize_spec hc
    simp only [not_or, not_not] at hassets hn
    have hpos : minted.val ≠ 0 := fun h => hn.2.1 (Fin.ext h)
    refine wp_setPool fun q hq => ⟨hkx, hky, Or.inr ⟨_, rfl, ?_⟩⟩
    refine .add hv pool minted.val hpool (by omega) hassets hassets (U.checkedAdd_eq_some.1 hrA) (U.checkedAdd_eq_some.1 hrB)
      fee hacc ?_
    have := U.checkedAdd_eq_some.1 htotal
    dsimp only at this ⊢
    omega

omit hG in
/-- What the new record adds, less the shares it issues. -/
theorem LpMinted.poolValue_le {C : Crypto} {pid : Word} {x y : LpSide} {variant : Nat} {p : PoolReserveState}
    (h : LpMinted s pid x y variant p) :
    (0 < (lpSharesMinted variant (s.pools.get pid) p).val ∧ ¬ (variant = 1 ∧ (s.pools.get pid).isSome)) ∧
      ({ s with pools := s.pools.set pid p } : ScanReflection).value C V a +
          amount a (ammDeriveLpAssetId C pid) (lpSharesMinted variant (s.pools.get pid) p).val ≤
        s.value C V a + amount a x.asset x.delta.val + amount a y.asset y.delta.val := by
  cases h with
  | init hv hnew hassets hA hB haccrued htotal =>
    have hshares : (lpSharesMinted variant (s.pools.get pid) p).val = p.totalShares.val - ammMinimumLiquidity := by
      have hlt := p.totalShares.isLt
      simp only [lpSharesMinted, hv, if_true, U.saturate]
      omega
    rw [hshares]
    refine ⟨⟨by omega, by simp [hnew]⟩, ?_⟩
    rw [ScanReflection.value_eq, ScanReflection.value_eq]
    dsimp only
    rw [mapsValue_pools_insert hnew]
    have := amount_le (a := a) (ammDeriveLpAssetId C pid) (Nat.sub_le p.totalShares.val ammMinimumLiquidity)
    simp only [poolValue, reserveValue, sharesIssued, hassets.1, hassets.2, hA, hB, haccrued, U.val_zero', amount_zero]
    omega
  | add hv old minted hold hpos hassets hassets' hA hB fee haccrued htotal =>
    have hshares : (lpSharesMinted variant (s.pools.get pid) p).val = minted := by
      simp [lpSharesMinted, hv, hold, U.saturatingSub]
      omega
    rw [hshares]
    refine ⟨⟨hpos, by simp [hv]⟩, ?_⟩
    rw [ScanReflection.value_eq, ScanReflection.value_eq]
    dsimp only
    rw [mapsValue_pools_set hold]
    simp only [poolValue, reserveValue, sharesIssued, hassets.1, hassets.2, hassets'.1, hassets'.2, hA, hB, haccrued, htotal,
      amount_add]
    omega

theorem foldLpShareMint_adds {pid : Word} {shares : U 64} {c : Bytes} {r auth outpoint : Word} {path : List Word} :
    wp True (foldLpShareMint G.toCrypto pid shares c r path outpoint auth) s (fun _ _ => True)
      (fun _ t => AddsNotes V a s (amount a (ammDeriveLpAssetId G.toCrypto pid) shares.val) t) := by
  simp only [foldLpShareMint, wp_bind, wp_check, wp_orThrow, implies_true, true_and, reflectedNoteLeaf, commitmentHashCompressed,
    Option.map_eq_some_iff]
  rintro _ pt hpt hopen _ - _ ⟨pt', hpt', rfl⟩
  cases hpt.symm.trans hpt'
  refine wp_mono (foldOutputTagged_adds (V := V) (a := a)) id (fun _ _ _ => trivial) fun _ t ht => ?_
  have hv := hG.opening (by simpa using hopen)
  unfold pointValue at hv
  rwa [hv] at ht

omit hG in
theorem ammCanonicalPair_eq {x y ca cb : Word} (h : ammCanonicalPair x y = some (ca, cb)) :
    ca ≠ cb ∧ (x = ca ∧ y = cb ∨ x ≠ ca ∧ x = cb ∧ y = ca) := by
  unfold ammCanonicalPair at h
  split at h
  · cases h
  · rename_i hne
    split at h
    · cases h
      exact ⟨hne, Or.inl ⟨rfl, rfl⟩⟩
    · cases h
      exact ⟨Ne.symm hne, Or.inr ⟨hne, rfl, rfl⟩⟩

omit hG in
theorem amount_two {x y : Word} (h : x ≠ y) (v : Nat) : amount a x v + amount a y v ≤ v := by
  unfold amount
  split
  · rename_i hx
    rw [if_neg (hx ▸ h.symm)]
    omega
  · split <;> omega

/-- The deposit of an add comes out of the spends. -/
theorem lpAdd_credit {spends : List DetectedSpend} (hd : Detected G.toKeccak spends) {x y : LpSide} {ca cb : Word}
    (hne : ca ≠ cb) (hx : x.asset = ca) (hy : y.asset = cb) (hA : (collect G spends ca).2 = some x.inputCommitments)
    (hB : (collect G spends cb).2 = some y.inputCommitments) {variant : Nat} {pid : Word} {shares : U 64} {c : Bytes}
    {expiry : U 32} (hkx : x.kernelOk G.toCrypto variant pid shares c expiry = true)
    (hky : y.kernelOk G.toCrypto variant pid shares c expiry = true) :
    amount a x.asset x.delta.val + amount a y.asset y.delta.val ≤ credit V a spends := by
  rw [← lpAdd_conserves hG hkx, ← lpAdd_conserves hG hky, hx, hy, collect_value hd hA, collect_value hd hB]
  exact amount_two hne _

/-- The share note of a pool that grew. -/
theorem scanLpShares_minted {tx : Tx} {w : TxWitness} {e : LpAddEnvelope} {pid : Word} {x y : LpSide} {p : PoolReserveState}
    (h : LpMinted s pid x y e.variant p) :
    wp True (scanLpShares G tx w e pid (s.pools.get pid)) { s with pools := s.pools.set pid p } (fun _ _ => True)
      (fun _ t => t.value G.toCrypto V a ≤
        s.value G.toCrypto V a + amount a x.asset x.delta.val + amount a y.asset y.delta.val) := by
  obtain ⟨hc, hval⟩ := h.poolValue_le (C := G.toCrypto) (V := V) (a := a)
  simp only [scanLpShares, wp_bind, wp_get, SortedMap.get_set, if_true]
  rw [if_pos hc, wp_expect]
  refine wp_mono (foldLpShareMint_adds hG (a := a)) id (fun _ _ _ => trivial) fun _ u hu => ?_
  have := hu.value G.toCrypto
  omega

omit hG in
/-- After a refund the pool is what it was: no shares, and the record is written back. -/
theorem scanLpShares_refunded {tx : Tx} {w : TxWitness} {e : LpAddEnvelope} {pid : Word} {c : Nat} {t : ScanReflection}
    (h : AddsNotes V a s c t) :
    wp True (scanLpShares G tx w e pid (s.pools.get pid)) t (fun _ _ => True)
      (fun _ u => u.value G.toCrypto V a ≤ s.value G.toCrypto V a + c) := by
  have hv := h.value G.toCrypto
  simp only [scanLpShares, wp_bind, wp_get, h.pools]
  cases hpre : s.pools.get pid with
  | none => exact wp_pure.2 hv
  | some old =>
    have hno : ¬ (0 < (lpSharesMinted e.variant (some old) old).val ∧ ¬ (e.variant = 1 ∧ (some old).isSome)) := by
      by_cases h : e.variant = 1 <;> simp [lpSharesMinted, h, U.saturatingSub]
    dsimp only
    rw [if_neg hno, wp_expect]
    refine wp_setPool fun q hq => ?_
    have := h.value_setPool G.toCrypto (p := old) hpre
    omega

theorem scanLpAdd_gains {spends : List DetectedSpend} (hd : Detected G.toKeccak spends) {tx : Tx} {w : TxWitness}
    {e : LpAddEnvelope} :
    wp True (scanLpAdd G tx w spends e) s (fun _ _ => True)
      (fun _ t => t.value G.toCrypto V a ≤ s.value G.toCrypto V a + credit V a spends) := by
  unfold scanLpAdd
  cases hpair : ammCanonicalPair e.assetA e.assetB with
  | none => simp
  | some z =>
    obtain ⟨ca, cb⟩ := z
    obtain ⟨hne, horder⟩ := ammCanonicalPair_eq hpair
    dsimp only
    simp only [wp_bind, wp_orPanic, wp_get, implies_true, true_and]
    intro aPts hA bPts hB
    split
    · simp
    · rename_i pid hpid
      simp only [wp_ite, wp_bind, succeeds, wp_attempt, wp_pure]
      refine ⟨fun _ => ?_, fun _ => by omega⟩
      refine wp_mono (foldLpAdd_adds hG (a := a)) id (fun _ t ht => ⟨by simp, fun _ => ?_⟩) fun _ t ht => ⟨fun _ => ?_, fun h => absurd trivial h⟩
      · have := ht.value G.toCrypto
        omega
      · obtain ⟨hkx, hky, hout⟩ := ht
        have hcredit := lpAdd_credit (V := V) (a := a) hG hd hne ?_ ?_ hA hB hkx hky
        rotate_left
        · rcases horder with ⟨h, -⟩ | ⟨h, -, h'⟩
          · simp [lpSide, h]
          · simp [lpSide, h, h']
        · rcases horder with ⟨h, h'⟩ | ⟨-, h', -⟩
          · simp [lpSide, h, h']
          · simp [lpSide, h']
            exact fun e => absurd e.symm hne
        rcases hout with hrefund | ⟨p, rfl, hminted⟩
        · refine wp_mono (scanLpShares_refunded hrefund) id (fun _ _ _ => trivial) fun _ u hu => ?_
          omega
        · refine wp_mono (scanLpShares_minted hG (a := a) hminted) id (fun _ _ _ => trivial) fun _ u hu => ?_
          omega

theorem foldLpRemove_gains {pid : Word} {shares dA dB : U 64} {cA cB : Bytes} {rA rB : Word} {ops : List OutPoint}
    {pts : List Point} {sig : Bytes} {recvA recvB refund : NoteDest} {p p₂ p₃ : List Word} :
    wp True (foldLpRemove G.toCrypto pid shares dA dB cA rA cB rB ops pts sig recvA recvB refund p p₂ p₃) s
      (fun _ t => t.value G.toCrypto V a ≤ s.value G.toCrypto V a)
      (fun _ t => t.value G.toCrypto V a ≤
        s.value G.toCrypto V a + amount a (ammDeriveLpAssetId G.toCrypto pid) (pts.map (pointValue G.toCrypto V)).sum) := by
  simp only [foldLpRemove, wp_bind, wp_get, wp_orThrow, wp_check, wp_orPanic, wp_ite, le_refl, implies_true, true_and]
  intro pool hpool _ _ pool' hc hbad _ hk
  obtain ⟨accrued, total, k, fee, rfl, hacc, htot⟩ := crystallize_spec hc
  rw [lpRemove_conserves hG (by simpa using hk)]
  refine ⟨fun _ => ?_, fun _ => ?_⟩
  · exact wp_mono (onboardNote_pedersen hG) id (fun _ _ h => by simpa using h.value G.toCrypto) fun _ _ h => h.value G.toCrypto
  · refine wp_mono (onboardPair_adds (a := a) hG rfl rfl) id (fun _ _ h => by simpa using h.value G.toCrypto) fun _ t ht => ?_
    refine wp_setPool fun q hq => ?_
    refine (ht.value_setPool G.toCrypto hpool).trans ?_
    simp only [not_or, not_lt] at hbad
    have hsh : shares.val ≤ total.val := by simpa using hbad.2.2
    have hpos : 0 < total.val := Nat.pos_of_ne_zero fun h => hbad.1 (Fin.ext h)
    -- a proportional payout is at most the reserve, so the debit is exact
    have hpay : ∀ r : U 64, (U.wrap 64 (r.val * shares.val / total.val)).val ≤ r.val := by
      intro r
      refine (Nat.mod_le _ _).trans (Nat.div_le_of_le_mul ?_)
      rw [Nat.mul_comm]
      exact Nat.mul_le_mul_right _ hsh
    have hA := amount_sub_add (a := a) pool.assetA (hpay pool.reserveA)
    have hB := amount_sub_add (a := a) pool.assetB (hpay pool.reserveB)
    have hS := amount_sub_add (a := a) (ammDeriveLpAssetId G.toCrypto pid) hsh
    rw [htot, amount_add] at hS
    rw [htot] at hA hB
    simp only [poolValue, reserveValue, sharesIssued, U.saturatingSub, hacc, htot, amount_add]
    push_cast
    omega

theorem scanLpRemovePools_gains {spends : List DetectedSpend} (hd : Detected G.toKeccak spends) {tx : Tx} {w : TxWitness}
    {e : LpRemoveEnvelope} {inOrder : Bool} : ∀ {pids : List Word} {s : ScanReflection},
    wp True (scanLpRemovePools G tx w spends e inOrder pids) s (fun _ _ => True)
      (fun _ t => t.value G.toCrypto V a ≤ s.value G.toCrypto V a + credit V a spends)
  | [], s => by simp [scanLpRemovePools]
  | pid :: pids, s => by
    unfold scanLpRemovePools
    dsimp only
    simp only [wp_bind, wp_orPanic, wp_ite, wp_pure, swallow, wp_attempt, implies_true, true_and]
    intro pts hpts
    refine ⟨fun _ => ⟨fun _ => ?_, fun _ => by omega⟩, fun _ => scanLpRemovePools_gains hd⟩
    refine wp_mono (foldLpRemove_gains hG (a := a)) id (fun _ t ht => by omega) fun _ t ht => ?_
    have := collect_value (V := V) (a := a) hd hpts
    have hle : amount a (ammDeriveLpAssetId G.toCrypto pid) (credit V a spends) ≤ credit V a spends := by
      unfold amount
      split <;> omega
    omega

theorem scanLpRemove_gains {spends : List DetectedSpend} (hd : Detected G.toKeccak spends) {tx : Tx} {w : TxWitness}
    {e : LpRemoveEnvelope} :
    wp True (scanLpRemove G tx w spends e) s (fun _ _ => True)
      (fun _ t => t.value G.toCrypto V a ≤ s.value G.toCrypto V a + credit V a spends) := by
  unfold scanLpRemove
  split
  · simp
  · rw [wp_bind, wp_get]
    exact scanLpRemovePools_gains hG hd

theorem foldProtocolFeeClaim_gains {e : ProtocolFeeClaimEnvelope} {claim : NoteDest} {path : List Word} :
    wp True (foldProtocolFeeClaim G.toCrypto e claim path) s
      (fun _ t => t.value G.toCrypto V a ≤ s.value G.toCrypto V a) (fun _ t => t.value G.toCrypto V a ≤ s.value G.toCrypto V a) := by
  simp only [foldProtocolFeeClaim, wp_bind, wp_get, wp_orThrow, wp_check, wp_orPanic, le_refl, implies_true, true_and]
  intro pool hpool _ _ _ _ pool' hc hclaim pt hpt hopen auth _
  obtain ⟨accrued, total, k, fee, rfl, hacc, htot⟩ := crystallize_spec hc
  have hv := hG.opening (by simpa using hopen)
  have hadd : ∀ pt', G.decompress e.claimCSecp = some pt' → pointValue G.toCrypto V pt' ≤ e.claimAmount.val := by
    intro pt' hpt'
    cases hpt.symm.trans hpt'
    exact hv.le
  refine wp_mono (onboardNote_adds hadd) id (fun _ _ h => by simpa using h.value G.toCrypto) fun _ t ht => ?_
  refine wp_setPool fun q hq => (ht.value_setPool G.toCrypto hpool).trans ?_
  have hamount : e.claimAmount = accrued := by
    simp only [not_or, not_not] at hclaim
    exact hclaim.2
  simp only [poolValue, reserveValue, sharesIssued, hamount, hacc, htot, amount_add, U.val_zero', amount_zero]
  push_cast
  omega

end Liquidity

/-! ## Farms -/

section Farms

variable {G : BatchCrypto} {V : Word → Nat} {a : Word} {s : ScanReflection}

theorem sharesBonded_bond {st st' : FarmRewardState} {shares height : U 64} {entry : U 128}
    (h : st.bond shares height = some (st', entry)) :
    sharesBonded a st' = sharesBonded a st + amount a st.lpAsset shares.val := by
  unfold FarmRewardState.bond at h
  split at h
  · cases h
  · simp only [Option.bind_eq_bind, Option.bind_eq_some_iff, U.checkedAdd_eq_some, Option.some.injEq, Prod.mk.injEq] at h
    obtain ⟨debt, -, total, htotal, debt', -, rfl, -⟩ := h
    obtain ⟨rps, last, he⟩ := st.accrue_eq height
    rw [he] at htotal ⊢
    simp only [sharesBonded, htotal, amount_add]

theorem sharesBonded_unbond {st st' : FarmRewardState} {shares height : U 64} {entry : U 128}
    (h : st.unbond shares entry height = some st') :
    sharesBonded a st' + amount a st.lpAsset shares.val = sharesBonded a st := by
  unfold FarmRewardState.unbond at h
  split at h
  · cases h
  · simp only [Option.bind_eq_bind, Option.bind_eq_some_iff, U.checkedSub_eq_some, Option.some.injEq] at h
    obtain ⟨debt, -, total, ⟨hle, htotal⟩, debt', -, rfl⟩ := h
    obtain ⟨rps, last, he⟩ := st.accrue_eq height
    rw [he] at hle htotal ⊢
    simp only [sharesBonded, htotal]
    exact amount_sub_add _ hle

theorem sharesBonded_harvest {st st' : FarmRewardState} {height shares reward : U 64} {entry stamp : U 128}
    (h : verifyFarmHarvest st height shares entry reward = some (st', stamp)) : sharesBonded a st' = sharesBonded a st := by
  unfold verifyFarmHarvest at h
  split at h
  · cases h
  · simp only [FarmRewardState.harvestCommit, Option.bind_eq_bind, Option.bind_eq_some_iff, Option.some.injEq,
      Prod.mk.injEq] at h
    obtain ⟨_, -, _, -, _, -, rfl, -⟩ := h
    obtain ⟨rps, last, he⟩ := st.accrue_eq height
    rw [he]
    rfl

/-- An unbond whose shares and debt are there does not fail after its note is onboarded. -/
theorem unbond_isSome {st : FarmRewardState} {shares height : U 64} {entry : U 128}
    (h : ¬ (shares = 0 ∨ shares > st.totalShares ∨ 2 ^ 128 ≤ shares.val * entry.val ∨
      st.totalRewardDebt.val < shares.val * entry.val)) : st.unbond shares entry height ≠ none := by
  obtain ⟨rps, last, he⟩ := st.accrue_eq height
  simp only [not_or, not_lt, not_le] at h
  obtain ⟨h0, h1, h2, h3⟩ := h
  have hshares : shares.val ≤ st.totalShares.val := h1
  simp only [FarmRewardState.unbond, if_neg h0, U.ofNat?, dif_pos h2, Option.bind_eq_bind, Option.bind_some, U.checkedSub,
    he, if_pos hshares, if_pos h3]
  exact nofun

variable (hG : Sound G V)

include hG

theorem foldFarmInit_gains {e : FarmInitEnvelope} {farmId : Word} {input : OutPoint} {cIn : Bytes} {c0 : Bool}
    {outpoint : Word} {path : List Word} :
    wp True (foldFarmInit G.toCrypto e farmId input cIn c0 outpoint path) s
      (fun _ t => t.value G.toCrypto V a ≤ s.value G.toCrypto V a)
      (fun _ t => t.value G.toCrypto V a ≤ s.value G.toCrypto V a + amount a e.rewardAsset (wireValue G V cIn)) := by
  simp only [foldFarmInit, wp_bind, wp_check, wp_get, wp_ite, le_refl, implies_true, true_and]
  intro _ hs hk
  have hsent : isSentinel e.cChangeOrSentinel = true := by simpa using hs
  have hv := swapVar_conserves hG (by simpa using hk) fun h => absurd hsent (by simp [h])
  have hle : amount a e.rewardAsset e.rewardTotal.val ≤ amount a e.rewardAsset (wireValue G V cIn) := by
    rw [hv]
    exact amount_le _ (Nat.le_add_left ..)
  refine ⟨fun _ => ?_, fun _ => wp_insertPool fun hnew => ?_⟩
  · refine wp_mono (onboardAmmRefundNote_adds hG (a := a)) id (fun _ _ h => by simpa using h.value G.toCrypto) fun _ t ht => ?_
    have := ht.value G.toCrypto
    simp only [wp_pure]
    omega
  · simp only [wp_pure]
    rw [ScanReflection.value_eq, ScanReflection.value_eq]
    dsimp only
    rw [mapsValue_pools_insert hnew]
    simp only [poolValue, reserveValue, sharesIssued, U.val_zero', amount_zero]
    omega

omit hG in
theorem foldFarmInitRewards_gains {C : Crypto} {farmId : Word} {rate : U 64} {key : Bytes} {poolId : Word}
    {start stop total : U 64} :
    wp True (foldFarmInitRewards C farmId rate key poolId start stop total) s
      (fun _ t => t.value C V a ≤ s.value C V a) (fun _ t => t.value C V a ≤ s.value C V a) := by
  simp only [foldFarmInitRewards, wp_bind, wp_get, wp_check, wp_orThrow, wp_orPanic, wp_modify, le_refl, implies_true, true_and,
    SortedMap.insert_eq_some]
  rintro _ _ _ _ _ rw' _ _ _ _ ⟨hnew, rfl⟩
  rw [ScanReflection.value_eq, ScanReflection.value_eq]
  dsimp only
  rw [mapsValue_farms_insert hnew]
  simp [sharesBonded]

theorem wireValue_launcher {spends : List DetectedSpend} (hd : Detected G.toKeccak spends) {d : DetectedSpend}
    (hmem : d ∈ spends) {asset : Word} (hasset : d.asset = asset) {pt : Point} (hpt : G.fromAffineXy d.cx d.cy = some pt) :
    amount a asset (wireValue G V (G.compress pt)) ≤ credit V a spends := by
  have hv := hd.value_point (V := V) (a := a) hmem
  have hp : pt = d.point := by
    unfold Crypto.fromAffineXy at hpt
    split at hpt <;> cases hpt
    rfl
  have hw : wireValue G V (G.compress pt) ≤ pointValue G.toCrypto V pt := by
    cases hc : G.decompress (G.compress pt) with
    | none => simp [wireValue, hc]
    | some q => rw [wireValue_of_some hc, hG.compress hc]
  refine (amount_le _ hw).trans ?_
  rw [hp, ← hasset, ← hv]
  exact List.le_sum_of_mem (List.mem_map_of_mem hmem)

theorem scanFarmInit_gains {spends : List DetectedSpend} (hd : Detected G.toKeccak spends) {tx : Tx} {w : TxWitness}
    {e : FarmInitEnvelope} : ∀ {ds : List DetectedSpend}, ds ⊆ spends →
    wp True (scanFarmInit G tx w e ds) s (fun _ _ => True)
      (fun _ t => t.value G.toCrypto V a ≤ s.value G.toCrypto V a + credit V a spends)
  | [], _ => by simp [scanFarmInit]
  | d :: ds, hsub => by
    obtain ⟨hmem, htail⟩ := List.cons_subset.1 hsub
    unfold scanFarmInit
    split
    · rename_i pt hasset hpt
      simp only [wp_ite, wp_bind, wp_attempt]
      refine ⟨fun _ => scanFarmInit_gains hd htail, fun _ => ⟨fun _ => ?_, fun _ => by simp⟩⟩
      refine wp_mono (foldFarmInit_gains hG (a := a)) id (fun _ t ht => ?_) fun ok t ht => ?_
      · simp only [wp_pure]
        omega
      · -- the treasury is funded by the spend the launcher signed
        have hle : amount a e.rewardAsset (wireValue G V (G.compress pt)) ≤ credit V a spends :=
          wireValue_launcher hG hd hmem (by simpa using hasset) hpt
        cases ok with
        | false => simp only [wp_pure]; omega
        | true =>
          simp only [swallow, wp_bind, wp_attempt, wp_pure]
          refine wp_mono (foldFarmInitRewards_gains (V := V) (a := a)) id (fun _ u hu => by omega) fun _ u hu => by omega
    · exact scanFarmInit_gains hd htail

theorem foldLpBond_gains {farmId : Word} {shares : U 64} {owner nonce : Word} {path : List Word} {blinding dest outpoint : Word}
    {st : FarmRewardState} (hst : s.farmRewards.get farmId = some st) :
    wp True (foldLpBond G.toCrypto farmId shares owner nonce path blinding dest outpoint) s
      (fun _ t => t.value G.toCrypto V a ≤ s.value G.toCrypto V a)
      (fun _ t => t.value G.toCrypto V a ≤ s.value G.toCrypto V a + amount a st.lpAsset shares.val) := by
  have hrefund : wp True (do
      onboardAmmRefundNote G.toCrypto st.lpAsset shares blinding dest outpoint path
      pure (0 : Word)) s (fun _ t => t.value G.toCrypto V a ≤ s.value G.toCrypto V a)
      (fun _ t => t.value G.toCrypto V a ≤ s.value G.toCrypto V a + amount a st.lpAsset shares.val) := by
    rw [wp_bind]
    exact wp_mono (onboardAmmRefundNote_adds hG) id (fun _ _ h => by simpa using h.value G.toCrypto) fun _ t ht =>
      wp_pure.2 (ht.value G.toCrypto)
  unfold foldLpBond
  simp only [wp_bind, wp_get, wp_orThrow, wp_check, le_refl, implies_true, true_and, hst, Option.some.injEq, forall_eq']
  intro _
  cases hb : st.bond shares s.height with
  | none => exact hrefund
  | some x =>
    obtain ⟨st', entry⟩ := x
    rw [wp_ite]
    refine ⟨fun _ => hrefund, fun _ => ?_⟩
    simp only [wp_bind, wp_expect, wp_modify]
    refine wp_foldNoteAppend fun r => wp_setFarm fun q hq => ?_
    have hadd : ∀ entries, AddsNotes V a s 0 { s with poolRoot := r, noteCount := s.noteCount + 1, farmEntries := entries } :=
      fun _ => ⟨by simp, rfl, rfl⟩
    refine wp_pure.2 (((hadd _).value_setFarm G.toCrypto hst _).trans ?_)
    have := sharesBonded_bond (a := a) hb
    omega

theorem scanLpBond_gains {spends : List DetectedSpend} (hd : Detected G.toKeccak spends) {tx : Tx} {w : TxWitness}
    {e : LpBondEnvelope} :
    wp True (scanLpBond G tx w spends e) s (fun _ _ => True)
      (fun _ t => t.value G.toCrypto V a ≤ s.value G.toCrypto V a + credit V a spends) := by
  unfold scanLpBond
  rw [wp_bind, wp_get]
  cases hst : s.farmRewards.get e.farmId with
  | none => simp
  | some st =>
    dsimp only
    simp only [wp_ite, swallow, wp_bind, wp_attempt, wp_pure]
    refine ⟨fun hc => ?_, fun _ => by omega⟩
    cases hpts : (collect G spends st.lpAsset).2 with
    | none => simp [hpts] at hc
    | some pts =>
      simp only [hpts, Bool.and_eq_true] at hc
      have hle : amount a st.lpAsset e.bondAmount.val ≤ credit V a spends := by
        rw [← lpBond_conserves hG hc.1, collect_value hd hpts]
        unfold amount
        split <;> omega
      exact wp_mono (foldLpBond_gains (a := a) hG hst) id (fun _ t ht => by omega) fun _ t ht => by omega

/-- A harvest that does not pay leaves the farm alone. -/
theorem foldHarvest_gains {farmId : Word} {reward : U 64} {r outpoint : Word} {path : List Word} {spk : Bytes} :
    wp True (foldHarvest G.toCrypto farmId reward r outpoint path spk) s (fun _ t => AddsNotes V a s 0 t)
      (fun _ t => t.value G.toCrypto V a ≤ s.value G.toCrypto V a) := by
  simp only [foldHarvest, wp_bind, wp_get, wp_orThrow, wp_check, AddsNotes.refl, implies_true, true_and]
  intro farm hfarm _ hle auth _
  refine wp_mono (onboardNote_pedersen hG) id (fun _ _ h => h) fun _ t ht => ?_
  refine wp_setPool fun q hq => (ht.value_setPool G.toCrypto hfarm).trans ?_
  have hle' : reward.val ≤ farm.reserveA.val := by
    simp only [not_or, not_lt, gt_iff_lt] at hle
    exact hle.2
  have hA := amount_sub_add (a := a) farm.assetA hle'
  simp only [poolValue, reserveValue, sharesIssued, U.saturatingSub]
  omega

theorem foldFarmRefund_gains {e : FarmRefundEnvelope} {outpoint : Word} {path : List Word} {spk : Bytes} :
    wp True (foldFarmRefund G.toCrypto e outpoint path spk) s (fun _ t => t.value G.toCrypto V a ≤ s.value G.toCrypto V a)
      (fun _ t => t.value G.toCrypto V a ≤ s.value G.toCrypto V a) := by
  simp only [foldFarmRefund, wp_bind, wp_get, wp_orThrow, wp_check, le_refl, implies_true, true_and]
  intro st _ _ _ _
  exact wp_mono (foldHarvest_gains hG) id (fun _ _ h => by simpa using h.value G.toCrypto) fun _ _ h => h

omit hG in
/-- The re-stamp of a harvest: one farm record, with the same bonded shares. -/
theorem foldLpHarvest_restamps {C : Crypto} {e : LpHarvestEnvelope} {i : Nat} {path : List Word} {spk : Bytes} :
    wp True (foldLpHarvest C e i path spk) s (fun _ t => t = s)
      (fun _ t => ∃ st st' entries, s.farmRewards.get e.farmId = some st ∧ sharesBonded a st' = sharesBonded a st ∧
        t = { s with farmRewards := s.farmRewards.set e.farmId st', farmEntries := entries }) := by
  simp only [foldLpHarvest, wp_bind, wp_get, wp_orThrow, wp_check, wp_modify, implies_true, true_and]
  rintro st hst entry _ ⟨st', stamp⟩ hh _ _
  exact wp_setFarm fun q hq => ⟨st, st', _, hst, sharesBonded_harvest hh, rfl⟩

theorem scanLpHarvest_gains {tx : Tx} {w : TxWitness} {e : LpHarvestEnvelope} :
    wp True (scanLpHarvest G tx w e) s (fun _ _ => True) (fun _ t => t.value G.toCrypto V a ≤ s.value G.toCrypto V a) := by
  simp only [scanLpHarvest, wp_bind, wp_get, succeeds, wp_attempt, wp_pure, wp_ite]
  refine wp_mono (foldLpHarvest_restamps (a := a)) id (fun _ t ht => ⟨by simp, fun _ => by rw [ht]⟩) fun _ t ht =>
    ⟨fun _ => ?_, fun h => absurd trivial h⟩
  obtain ⟨st, st', entries, hst, hbond, rfl⟩ := ht
  have hsame : ∀ (entries : SortedMap Word (U 128)),
      ({ s with farmRewards := s.farmRewards.set e.farmId st', farmEntries := entries } : ScanReflection).value G.toCrypto V a =
        s.value G.toCrypto V a := by
    intro entries
    rw [ScanReflection.value_eq, ScanReflection.value_eq]
    dsimp only
    rw [mapsValue_farms_set hst, hbond]
    omega
  refine wp_mono (foldHarvest_gains hG) id (fun _ u hu => ⟨by simp, fun _ => ?_⟩) fun _ u hu =>
    ⟨fun _ => (hsame entries ▸ hu), fun h => absurd trivial h⟩
  -- the draw failed: the record before the re-stamp is written back
  have hset : (s.farmRewards.set e.farmId st').get e.farmId = some st' := by simp
  have hv := hu.value_setFarm G.toCrypto hset st
  simp only [undoHarvest, hst, wp_bind, wp_expect, wp_modify]
  refine wp_setFarm fun q hq => ?_
  have := hsame entries
  rw [ScanReflection.value_eq] at hv ⊢
  dsimp only at hv ⊢
  omega

theorem foldLpUnbond_gains {e : LpUnbondEnvelope} {i : Nat} {oldPath : List Word} {w : SpentInsert} {outpoint : Word}
    {path : List Word} {spk : Bytes} :
    wp True (foldLpUnbond G.toCrypto e i oldPath w outpoint path spk) s
      (fun _ t => t.value G.toCrypto V a ≤ s.value G.toCrypto V a) (fun _ t => t.value G.toCrypto V a ≤ s.value G.toCrypto V a) := by
  simp only [foldLpUnbond, receiptSpendRoot, wp_bind, wp_get, wp_orThrow, wp_check, wp_modify, le_refl, implies_true, true_and]
  intro st hst entry _ _ _ root _ hbad auth _
  refine wp_mono (onboardNote_pedersen hG) id (fun _ _ h => by simpa using h.value G.toCrypto) fun _ t ht => ?_
  refine ⟨fun hnone => absurd hnone (unbond_isSome hbad), fun st' hst' => wp_setFarm fun q hq => ?_⟩
  have hv := ht.value_setFarm G.toCrypto hst st'
  have := sharesBonded_unbond (a := a) hst'
  rw [ScanReflection.value_eq] at hv ⊢
  dsimp only at hv ⊢
  omega

end Farms

end Tacit
