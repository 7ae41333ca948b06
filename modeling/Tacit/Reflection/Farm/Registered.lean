import Tacit.Reflection.Skips
/-!
# A treasury and its rewards are registered together (reflect.rs:2323-2373, lib.rs:5897-6031)

`fold_farm_init` puts the treasury into the pools and `fold_farm_init_rewards` the rewards into another map, with checks of its own
whose failure is dropped. The main loop checks the window before the first of the two, so the second can fail only on a farm that has
rewards already; and none has them without a treasury, since the other farm folds write back to the entries they read.
-/
namespace Tacit

open Prog

/-- The assets of a treasury. -/
def PoolReserveState.assets (p : PoolReserveState) : Word × Word := (p.assetA, p.assetB)

/-- What an init fixes in the rewards of a farm: the asset it takes bonds of, and its launcher. -/
def FarmRewardState.terms (st : FarmRewardState) : Word × Bytes := (st.lpAsset, st.launcherPubkey)

/-- What is registered under a farm's id. -/
def ScanReflection.registry (s : ScanReflection) (f : Word) : Option (Word × Word) × Option (Word × Bytes) :=
  ((s.pools.get f).map PoolReserveState.assets, (s.farmRewards.get f).map FarmRewardState.terms)

section Registry

variable {s t : ScanReflection} {f : Word}

theorem registry_of_eq (hp : t.pools = s.pools) (hr : t.farmRewards = s.farmRewards) : t.registry = s.registry := by
  funext f
  rw [ScanReflection.registry, ScanReflection.registry, hp, hr]

theorem registry_setPool {p q : PoolReserveState} (hq : s.pools.get f = some q) (hassets : p.assets = q.assets)
    (hp : t.pools = s.pools.set f p) (hr : t.farmRewards = s.farmRewards) : t.registry = s.registry := by
  funext j
  rw [ScanReflection.registry, ScanReflection.registry, hp, hr, SortedMap.get_set]
  by_cases hj : f = j
  · rw [if_pos hj, ← hj, hq, Option.map_some, Option.map_some, hassets]
  · rw [if_neg hj]

theorem registry_setFarm {st st' : FarmRewardState} (hst : s.farmRewards.get f = some st) (hterms : st'.terms = st.terms)
    (hp : t.pools = s.pools) (hr : t.farmRewards = s.farmRewards.set f st') : t.registry = s.registry := by
  funext j
  rw [ScanReflection.registry, ScanReflection.registry, hp, hr, SortedMap.get_set]
  by_cases hj : f = j
  · rw [if_pos hj, ← hj, hst, Option.map_some, Option.map_some, hterms]
  · rw [if_neg hj]

namespace FarmRewardState

variable {st st' : FarmRewardState} {n reward h : U 64} {entry stamp : U 128}

@[simp] theorem accrue_terms : (st.accrue h).terms = st.terms := by
  obtain ⟨_, _, e⟩ := st.accrue_eq h
  rw [e]
  rfl

theorem bond_terms (hb : st.bond n h = some (st', entry)) : st'.terms = st.terms := by
  obtain ⟨-, -, _, _, -, -, rfl⟩ := bond_eq_some hb
  exact accrue_terms (h := h)

theorem harvest_terms (hv : verifyFarmHarvest st h n entry reward = some (st', stamp)) : st'.terms = st.terms := by
  obtain ⟨-, -, -, -, _, -, rfl⟩ := verifyFarmHarvest_eq_some hv
  exact accrue_terms (h := h)

theorem unbond_terms (hu : st.unbond n entry h = some st') : st'.terms = st.terms := by
  obtain ⟨-, -, -, _, _, -, -, rfl⟩ := unbond_eq_some hu
  exact accrue_terms (h := h)

end FarmRewardState

end Registry

/-! ## Folds that register nothing -/

section Folds

variable {C : Crypto} {G : BatchCrypto} {s t : ScanReflection}

theorem onboardNote_registers {asset : Word} {c : Bytes} {auth outpoint : Word} {path : List Word} {e e' : String} :
    Fixes ScanReflection.registry (onboardNote C asset c auth outpoint path e e') :=
  fun _ => wp_onboardNote (fun _ _ => rfl) fun _ _ _ _ => registry_of_eq rfl rfl

theorem onboardAmmRefundNote_registers {asset : Word} {value : U 64} {blinding auth outpoint : Word} {path : List Word} :
    Fixes ScanReflection.registry (onboardAmmRefundNote C asset value blinding auth outpoint path) :=
  Within.check.bind fun _ => onboardNote_registers

theorem foldHarvest_registers {farmId : Word} {amount : U 64} {r outpoint : Word} {path : List Word} {spk : Bytes} :
    Fixes ScanReflection.registry (foldHarvest C farmId amount r outpoint path spk) := by
  intro s
  simp only [foldHarvest, wp_bind, wp_get, wp_orThrow, wp_check]
  refine ⟨fun _ => rfl, fun farm hfarm => ⟨fun _ => rfl, fun _ => ⟨fun _ => rfl, fun _ => ⟨fun _ => rfl, fun _ _ => ?_⟩⟩⟩⟩
  refine wp_onboardNote (fun _ _ => rfl) fun _ _ _ _ => wp_setPool fun _ _ => ?_
  refine registry_setPool hfarm ?_ rfl rfl
  rfl

theorem foldFarmRefund_registers {e : FarmRefundEnvelope} {outpoint : Word} {path : List Word} {spk : Bytes} :
    Fixes ScanReflection.registry (foldFarmRefund C e outpoint path spk) :=
  Within.get.bind fun _ => Within.orThrow.bind fun _ => Within.check.bind fun _ => Within.check.bind fun _ =>
    Within.check.bind fun _ => foldHarvest_registers

theorem foldLpBond_registers {farmId : Word} {shares : U 64} {owner nonce : Word} {path : List Word}
    {blinding xonly outpoint : Word} :
    Fixes ScanReflection.registry (foldLpBond C farmId shares owner nonce path blinding xonly outpoint) := by
  intro s
  simp only [foldLpBond, wp_bind, wp_get, wp_orThrow, wp_check]
  refine ⟨fun _ => rfl, fun st hst => ⟨fun _ => rfl, fun _ => ?_⟩⟩
  have hrefund : Fixes ScanReflection.registry (do
      onboardAmmRefundNote C st.lpAsset shares blinding xonly outpoint path
      pure (0 : Word)) := onboardAmmRefundNote_registers.bind fun _ => Within.pure
  split
  · exact hrefund s
  · next st' entry hbond =>
    rw [wp_ite]
    refine ⟨fun _ => hrefund s, fun _ => ?_⟩
    simp only [wp_bind, wp_expect, wp_modify, wp_pure]
    rw [wp_iff_ok]
    intro _ t ht
    obtain ⟨root, -, rfl⟩ := foldNoteAppend_eq_ok.1 ht
    exact wp_setFarm fun _ _ => registry_setFarm hst (FarmRewardState.bond_terms hbond) rfl rfl

theorem foldLpUnbond_registers {e : LpUnbondEnvelope} {i : Nat} {path : List Word} {w : SpentInsert} {outpoint : Word}
    {returnPath : List Word} {spk : Bytes} :
    Fixes ScanReflection.registry (foldLpUnbond C e i path w outpoint returnPath spk) := by
  intro s
  simp only [foldLpUnbond, receiptSpendRoot, wp_bind, wp_get, wp_orThrow, wp_check, wp_modify, Same, implies_true, true_and]
  intro st hst _ _ _ _ _ _ _ _ _
  refine wp_onboardNote (fun _ _ => rfl) fun _ _ _ _ => ⟨fun _ => registry_of_eq rfl rfl, fun st' hunbond => ?_⟩
  exact wp_setFarm fun _ _ => registry_setFarm hst (FarmRewardState.unbond_terms hunbond) rfl rfl

theorem scanLpBond_registers {tx : Tx} {w : TxWitness} {spends : List DetectedSpend} {e : LpBondEnvelope} :
    Fixes ScanReflection.registry (scanLpBond G tx w spends e) := by
  refine Within.get.bind fun s => ?_
  cases s.farmRewards.get e.farmId with
  | none => exact Within.pure
  | some st => exact Within.ite (fun _ s => wp_swallow.2 (foldLpBond_registers s)) fun _ => Within.pure

/-- Whether it is paid or undone. -/
theorem scanLpHarvest_registers {tx : Tx} {w : TxWitness} {e : LpHarvestEnvelope} :
    wp True (scanLpHarvest G tx w e) s (fun _ _ => True) fun _ t => t.registry = s.registry := by
  by_cases hpays : harvestPays G tx w e s = true
  · unfold scanLpHarvest
    simp only [wp_bind, wp_get, succeeds, wp_attempt]
    rw [wp]
    cases hauth : foldLpHarvest G.toCrypto e w.oldIndex w.oldPath (tx.outputScriptpubkey 1) s with
    | panic => trivial
    | err err u => simp [harvestPays, hauth] at hpays
    | ok a u =>
      obtain ⟨st, st', entry, stamp, r, hst, rfl, -, hv, hu⟩ := foldLpHarvest_eq_ok hauth
      have hreg : u.registry = s.registry := by
        rw [hu]
        exact registry_setFarm hst (FarmRewardState.harvest_terms hv) rfl rfl
      simp only [wp_pure, if_true, wp_bind, wp_attempt]
      rw [wp]
      cases hpay : foldHarvest G.toCrypto e.farmId e.rewardAmount e.rewardR (outpointKey G.toKeccak (tx.txid, 1)) (w.path 0)
          (tx.outputScriptpubkey 1) u with
      | panic => trivial
      | err err v => simp [harvestPays, hauth, hpay] at hpays
      | ok b v => exact (wp_of_ok (Q := fun _ => Same ScanReflection.registry u) (foldHarvest_registers u) hpay).trans hreg
  · exact wp_mono (scanLpHarvest_traceless (by simpa using hpays)) id (fun _ _ _ => trivial) fun _ t ht => ht ▸ rfl

end Folds

/-! ## The init -/

/-- Nothing under an id, or the treasury and the rewards of the init that the id is derived from. -/
def Registered (C : Crypto) (reg : Word → Option (Word × Word) × Option (Word × Bytes)) : Prop := ∀ f,
  reg f = (none, none) ∨ ∃ e : FarmInitEnvelope, f = e.farmId C ∧
    reg f = (some (e.rewardAsset, 0), some (ammDeriveLpAssetId C e.poolId, e.launcherPubkey))

section Init

variable {C : Crypto} {G : BatchCrypto} {s t : ScanReflection}

theorem Registered.new (hs : Registered C s.registry) {f : Word} (hf : s.pools.get f = none) : s.farmRewards.get f = none := by
  rcases hs f with h | ⟨e, -, h⟩
  · exact Option.map_eq_none_iff.1 (congrArg Prod.snd h)
  · have h := congrArg Prod.fst h
    rw [ScanReflection.registry, hf] at h
    cases h

theorem Registered.register (hs : Registered C s.registry) (e : FarmInitEnvelope) : Registered C
    ({ s with pools := s.pools.set (e.farmId C) e.treasury,
              farmRewards := s.farmRewards.set (e.farmId C) (e.rewards C s.height) } : ScanReflection).registry := by
  intro f
  by_cases hf : e.farmId C = f
  · refine .inr ⟨e, hf.symm, ?_⟩
    rw [ScanReflection.registry, ← hf, SortedMap.get_set_self, SortedMap.get_set_self]
    rfl
  · rw [ScanReflection.registry, SortedMap.get_set, SortedMap.get_set, if_neg hf, if_neg hf]
    exact hs f

theorem foldFarmInit_founds {e : FarmInitEnvelope} {f : Word} {input : OutPoint} {c : Bytes} {outpoint : Word} {path : List Word} :
    wp True (foldFarmInit C e f input c true outpoint path) s (fun _ t => t.registry = s.registry) fun b t =>
      (b = false ∧ t.registry = s.registry) ∨
      (b = true ∧ s.pools.get f = none ∧ t = { s with pools := s.pools.set f e.treasury }) := by
  simp only [foldFarmInit, wp_bind, wp_check, wp_get, wp_ite, wp_pure, implies_true, true_and]
  refine fun _ _ _ => ⟨fun _ => ?_, fun _ => wp_insertPool fun hnone => .inr ⟨hnone, rfl⟩⟩
  exact wp_mono (onboardAmmRefundNote_registers s) id (fun _ _ h => h) fun _ _ h => .inl h

/-- A treasury in a state where none lacks its rewards has no rewards yet, so its registration goes through. -/
theorem Registered.rewards_ok (hs : Registered C s.registry) {e : FarmInitEnvelope} {f : Word} (hw : farmWindowOk e = true)
    (hfresh : s.pools.get f = none) :
    foldFarmInitRewards C f e.rewardPerBlock e.launcherPubkey e.poolId (U.wrap 64 e.startHeight.val)
      (U.wrap 64 e.endHeight.val) e.rewardTotal { s with pools := s.pools.set f e.treasury } =
      .ok () { s with pools := s.pools.set f e.treasury, farmRewards := s.farmRewards.set f (e.rewards C s.height) } :=
  foldFarmInitRewards_ok (s := { s with pools := s.pools.set f e.treasury }) hw (hs.new hfresh)

theorem scanFarmInit_registers (hs : Registered G.toCrypto s.registry) {tx : Tx} {w : TxWitness} {e : FarmInitEnvelope}
    (spends : List DetectedSpend) :
    wp True (scanFarmInit G tx w e spends) s (fun _ _ => True) fun _ t => Registered G.toCrypto t.registry := by
  induction spends with
  | nil => exact hs
  | cons d ds ih =>
    unfold scanFarmInit
    cases decide (d.asset = e.rewardAsset) with
    | false => exact ih
    | true =>
      cases G.fromAffineXy d.cx d.cy with
      | none => exact ih
      | some pt =>
        simp only [wp_ite]
        refine ⟨fun _ => ih, fun _ => ⟨fun hw => ?_, fun _ => hs⟩⟩
        rw [wp_bind, wp_attempt]
        refine wp_mono foldFarmInit_founds id (fun _ t ht => ?_) ?_
        · show Registered _ t.registry
          rwa [ht]
        · rintro b t (⟨rfl, ht⟩ | ⟨rfl, hfresh, rfl⟩)
          · show Registered _ t.registry
            rwa [ht]
          · exact wp_swallow.2 ((wp_ran (hs.rewards_ok hw hfresh)).2 (hs.register e))

end Init

/-! ## Runs -/

section Run

variable {G : BatchCrypto} {K : Keccak} {s t : ScanReflection} {A : ScanReflection → FarmOp → Prop} {paid : Word → Nat}

theorem FarmOp.registers {op : FarmOp} (hs : Registered G.toCrypto s.registry) (h : op.run G s = .ok () t) :
    Registered G.toCrypto t.registry := by
  have hkeep {m : Guest Unit} (hm : Fixes ScanReflection.registry m) (hrun : m s = .ok () t) : Registered G.toCrypto t.registry := by
    rwa [show t.registry = s.registry from wp_of_ok (Q := fun _ => Same ScanReflection.registry s) (hm s) hrun]
  cases op with
  | advance height =>
    simp only [FarmOp.run, bind_eq_ok, get_eq_ok, assert_eq_ok, modify_eq_ok] at h
    obtain ⟨_, _, ⟨rfl, rfl⟩, _, _, ⟨-, rfl⟩, rfl⟩ := h
    exact hs
  | init tx w spends e =>
    exact wp_of_ok (Q := fun _ t => Registered G.toCrypto t.registry) (scanFarmInit_registers hs spends) h
  | bond tx w spends e => exact hkeep scanLpBond_registers h
  | harvest tx w e =>
    rwa [show t.registry = s.registry from wp_of_ok (Q := fun _ t => t.registry = s.registry) scanLpHarvest_registers h]
  | unbond tx w e => exact hkeep (fun s => wp_swallow.2 (foldLpUnbond_registers s)) h
  | refund tx w e => exact hkeep (fun s => wp_swallow.2 (foldFarmRefund_registers s)) h

theorem registered_genesis {C : Crypto} : Registered C (ScanReflection.genesis K).registry := fun _ => .inl rfl

theorem FarmRun.registered (h : FarmRun G A (ScanReflection.genesis K) s paid) : Registered G.toCrypto s.registry := by
  induction h with
  | start => exact registered_genesis
  | step op _ _ hop ih => exact FarmOp.registers ih hop

/-- In every state of a run of the farm folds a treasury has its rewards and rewards their treasury, both of the init that the farm's
id is derived from; and once an init that the main loop admits has put its treasury in, its rewards are registered. -/
theorem treasury_iff_rewards (h : FarmRun G A (ScanReflection.genesis K) s paid) :
    (∀ f, s.pools.get f ≠ none ↔ s.farmRewards.get f ≠ none) ∧
    (∀ f pool st, s.pools.get f = some pool → s.farmRewards.get f = some st → ∃ e : FarmInitEnvelope, f = e.farmId G.toCrypto ∧
      pool.assets = (e.rewardAsset, 0) ∧ st.terms = (ammDeriveLpAssetId G.toCrypto e.poolId, e.launcherPubkey)) ∧
    ∀ e f input c outpoint path t, farmWindowOk e = true →
      foldFarmInit G.toCrypto e f input c true outpoint path s = .ok true t →
      ∃ u, foldFarmInitRewards G.toCrypto f e.rewardPerBlock e.launcherPubkey e.poolId (U.wrap 64 e.startHeight.val)
        (U.wrap 64 e.endHeight.val) e.rewardTotal t = .ok () u := by
  have hs := h.registered
  refine ⟨fun f => ?_, fun f pool st hpool hst => ?_, fun e f input c outpoint path t hw hinit => ?_⟩
  · have hiff : (s.registry f).1 ≠ none ↔ (s.registry f).2 ≠ none := by
      rcases hs f with hf | ⟨e, -, hf⟩
      · simp [hf]
      · simp [hf]
    simpa [ScanReflection.registry] using hiff
  · have hreg : s.registry f = (some pool.assets, some st.terms) := by rw [ScanReflection.registry, hpool, hst]; rfl
    rcases hs f with hf | ⟨e, hid, hf⟩
    · rw [hreg] at hf
      cases hf
    · rw [hreg] at hf
      obtain ⟨hassets, hterms⟩ := Prod.mk.inj hf
      exact ⟨e, hid, Option.some.inj hassets, Option.some.inj hterms⟩
  · obtain ⟨hfalse, -⟩ | ⟨-, hfresh, rfl⟩ := wp_of_ok foldFarmInit_founds hinit
    · cases hfalse
    · exact ⟨_, hs.rewards_ok hw hfresh⟩

/-- The long farm has both, and at genesis it gets both. -/
theorem long_farm_registered : ∃ s paid, FarmRun (clearCrypto codeKeccak) (fun _ _ => True) (ScanReflection.genesis codeKeccak) s paid ∧
    s.pools.get (longFarmId codeKeccak) ≠ none ∧ s.farmRewards.get (longFarmId codeKeccak) ≠ none ∧
    ∃ u, foldFarmInitRewards (clearCrypto codeKeccak).toCrypto (longFarmId codeKeccak) longFarm.rewardPerBlock
      longFarm.launcherPubkey longFarm.poolId (U.wrap 64 longFarm.startHeight.val) (U.wrap 64 longFarm.endHeight.val)
      longFarm.rewardTotal { ScanReflection.genesis codeKeccak with
        pools := SortedMap.empty.set (longFarmId codeKeccak) longFarm.treasury } = .ok () u := by
  have hrun := (FarmRun.start (G := clearCrypto codeKeccak) (A := fun _ _ => True)).step _ trivial
    (launch_ok codeKeccak (spendWitness [] [] []))
  have hpool : (launched codeKeccak).pools.get (longFarmId codeKeccak) ≠ none := by simp [launched]
  have hker : swapVarKernelVerify (clearCrypto codeKeccak).toCrypto longFarm.rewardAsset (wordOfNat 3, 0)
      (clearCompress (clearPoint (2 ^ 62) 0)) longFarm.cChangeOrSentinel longFarm.rewardTotal longFarm.kernelSig = true := by
    simp [swapVarKernelVerify, clearCrypto, longFarm, isSentinel, clearBalances]
  have hinit : foldFarmInit (clearCrypto codeKeccak).toCrypto longFarm (longFarmId codeKeccak) (wordOfNat 3, 0)
      (clearCompress (clearPoint (2 ^ 62) 0)) true 0 [] (ScanReflection.genesis codeKeccak) = _ :=
    foldFarmInit_ok (by decide) rfl hker rfl rfl
  exact ⟨_, _, hrun, hpool, ((treasury_iff_rewards hrun).1 _).1 hpool,
    (treasury_iff_rewards (FarmRun.start (A := fun _ _ => True))).2.2 _ _ _ _ _ _ _ (by decide) hinit⟩

end Run

end Tacit
