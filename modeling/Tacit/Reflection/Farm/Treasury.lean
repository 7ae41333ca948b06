import Tacit.Reflection.Farm.Width
/-!
# What the treasury owes

A farm-init funds the whole window (lib.rs:6000), and a harvest draws no more than its position is due. A refund is
another draw: the launcher takes what it likes while nobody is bonded (lib.rs:6039), the window goes on, and a bond asks
only whether its own sums fit (lib.rs:6082). `Covers` is the debt of the treasury to its live positions: what is
outstanding, and what the rest of the window can add. It is kept by every step but a first bond into a treasury that
was drawn below the rest of its window.
-/
namespace Tacit

open Prog FarmRewardState

variable {K : Keccak} {F : Farms} {p : Nat} {f : Word} {st st' : FarmRewardState} {L : RewardLedger Receipt} {r : Receipt}

/-- `rps·total_shares − total_reward_debt`, the unclaimed entitlement (lib.rs:6698). -/
def FarmRewardState.owed (st : FarmRewardState) : Nat := st.totalShares.val * st.rps.val - st.totalRewardDebt.val

theorem Booked.owed_eq (hb : Booked K F p f st L) : L.owed = st.owed := by
  have := L.owed_add_debt
  rw [hb.total, hb.debt, hb.index] at this
  unfold owed
  omega

/-- Somebody is bonded exactly when the shares are not zero. -/
theorem Booked.live_nonempty_iff (hb : Booked K F p f st L) : L.live.Nonempty ↔ st.totalShares ≠ 0 := by
  constructor
  · rintro ⟨r, hr⟩ h0
    have hle := RewardLedger.shares_le_total hr
    rw [hb.shares, hb.total, h0] at hle
    exact hb.nonzero r hr (Fin.ext (Nat.le_zero.1 hle))
  · intro h0
    by_contra hne
    have hempty : L.total = 0 := by
      rw [Finset.not_nonempty_iff_eq_empty] at hne
      simp [RewardLedger.total, hne]
    rw [hb.total] at hempty
    exact h0 (Fin.ext hempty)

/-- With a treasury of `reserve`, at the last accrual: what is owed and what can still accrue. -/
def Covers (st : FarmRewardState) (reserve : Nat) : Prop :=
  st.totalShares ≠ 0 → st.owed + st.rate.val * st.rest st.lastHeight * farmRpsPrecision ≤ reserve * farmRpsPrecision

theorem Booked.covers_accrue (hb : Booked K F p f st L) {reserve : Nat} (hc : Covers st reserve) (h : U 64) :
    Covers (st.accrue h) reserve := by
  intro hs
  rw [accrue_totalShares] at hs
  have hc := hc hs
  have hmul := st.mul_raised_le h
  have hrest := span_add_rest hb.scheduled h
  have he : (st.accrue h).rest (st.accrue h).lastHeight = st.rest (st.accrue h).lastHeight := by simp [rest]
  rw [← hrest, Nat.mul_add, Nat.add_mul] at hc
  rw [accrue_rate, he]
  unfold owed at hc ⊢
  rw [accrue_totalShares, accrue_totalRewardDebt, hb.rps_accrue h, Nat.mul_add]
  omega

/-- A first bond finds the rest of the window in the treasury. -/
def BondsBacked (s : ScanReflection) : FarmOp → Prop
  | .bond _ _ _ e => ∀ st pool, s.farmRewards.get e.farmId = some st → s.pools.get e.farmId = some pool → st.totalShares = 0 →
      st.rate.val * st.rest s.height ≤ pool.reserveA.val
  | _ => True

/-- Every registered farm has a treasury that covers it. -/
def FarmsCovered (F : Farms) : Prop :=
  ∀ f st, F.rewards.get f = some st → ∃ pool, F.pools.get f = some pool ∧ Covers st pool.reserveA.val

/-- The step of one farm leaves the others covered. -/
theorem FarmsCovered.set {F' : Farms} (hC : FarmsCovered F) {pool : PoolReserveState} (hrw : F'.rewards = F.rewards.set f st')
    (hp : F'.pools = F.pools.set f pool) (hc : Covers st' pool.reserveA.val) : FarmsCovered F' := by
  intro g st hst
  rw [hrw, SortedMap.get_set] at hst
  rw [hp, SortedMap.get_set]
  by_cases hg : f = g
  · rw [if_pos hg] at hst ⊢
    cases hst
    exact ⟨pool, rfl, hc⟩
  · rw [if_neg hg] at hst ⊢
    exact hC g st hst

theorem FarmMove.keeps_covered {s t : ScanReflection} {op : FarmOp} {pay paid : Word → Nat} (hm : FarmMove K s t op pay)
    (hB : FarmsBooked K s.farms paid) (hback : BondsBacked s op) (hC : FarmsCovered s.farms) : FarmsCovered t.farms := by
  cases hm with
  | idle hf _ _ => rwa [hf]
  | advance _ hf _ _ =>
    rw [hf]
    exact hC
  | @fund tx w spends e f pool hfresh hknown hf hn hsp =>
    obtain ⟨st, hst⟩ := Option.ne_none_iff_exists'.1 hknown
    obtain ⟨q, hq, -⟩ := hC f st hst
    exact absurd (hfresh.symm.trans hq) (by simp)
  | @register tx w spends e f pool st hfresh hnew hz hs hfund hf hn hsp =>
    rw [hf]
    exact hC.set rfl rfl fun h => absurd hz.1 h
  | @refund tx w e st pool hst hvacant hpool hle hf hn hsp =>
    rw [hf]
    exact hC.set (SortedMap.set_get_self hst).symm rfl fun h => absurd hvacant h
  | @bond tx w spends e st st' entry r hst hr hfresh hbond hf hn hsp =>
    rw [hf]
    have hfarm : r.farm = e.farmId := by rw [hr]
    obtain ⟨L, hb⟩ := hB.books _ _ hst
    obtain ⟨pool, hpool, hc⟩ := hC _ _ hst
    obtain ⟨h0, rfl, total, debt, ht, hd, rfl⟩ := bond_eq_some hbond
    refine hC.set (f := r.farm) rfl (SortedMap.set_get_self (hfarm ▸ hpool)).symm fun _ => ?_
    have hl : (st.accrue s.height).lastHeight = s.height := by
      apply Fin.ext
      rw [accrue_lastHeight]
      exact max_eq_right hb.last
    -- nothing is owed to the newcomer, and the others are covered as before
    have howed : ({ st.accrue s.height with totalShares := total, totalRewardDebt := debt } : FarmRewardState).owed =
        (st.accrue s.height).owed := by
      unfold owed
      simp only [accrue_totalShares, accrue_totalRewardDebt]
      rw [ht, hd, Nat.add_mul]
      omega
    rw [howed]
    by_cases hv : st.totalShares = 0
    · have hback := hback st pool hst hpool hv
      have howed0 : (st.accrue s.height).owed = 0 := by
        unfold owed
        rw [accrue_totalShares, hv]
        simp
      have hmul := Nat.mul_le_mul_right farmRpsPrecision hback
      simp only [rest, accrue_rate, accrue_startHeight, accrue_endHeight, hl, howed0, Nat.zero_add] at hmul ⊢
      exact hmul
    · exact hb.covers_accrue hc s.height (by simpa using hv)
  | @harvest tx w e st st' entry stamp r pool hst hr hstamp hv hpool hle hf hn hsp =>
    rw [hf]
    have hfarm : r.farm = e.farmId := by rw [hr]
    obtain ⟨L, hb⟩ := hB.books _ _ hst
    obtain ⟨q, hq, hc⟩ := hC _ _ hst
    obtain rfl : pool = q := Option.some.inj (hpool.symm.trans hq)
    obtain ⟨h0, hent, rfl, hpay, debt, hd, rfl⟩ := verifyFarmHarvest_eq_some hv
    refine hC.set (f := r.farm) rfl rfl fun hs => ?_
    have hc := hb.covers_accrue hc s.height hs
    obtain ⟨n, hn⟩ : ∃ n, st.raised s.height = n := ⟨_, rfl⟩
    have hb' := hb.accrue (h := s.height) le_rfl hn
    obtain ⟨hm, he, -⟩ := hb'.stamp_le hfarm hstamp
    have hdue : (L.raise n).due r = r.shares.val * ((st.accrue s.height).rps.val - entry.val) := by
      rw [RewardLedger.due, hb'.shares, hb'.index, he]
    have hle' := RewardLedger.due_le_owed hm
    rw [hdue, hb'.owed_eq] at hle'
    have howed : ({ st.accrue s.height with totalRewardDebt := debt } : FarmRewardState).owed +
        r.shares.val * ((st.accrue s.height).rps.val - entry.val) = (st.accrue s.height).owed := by
      unfold owed at hle' ⊢
      simp only [accrue_totalRewardDebt] at hle' ⊢
      rw [hd]
      omega
    have hsub : (U.saturatingSub pool.reserveA e.rewardAmount).val * farmRpsPrecision =
        pool.reserveA.val * farmRpsPrecision - e.rewardAmount.val * farmRpsPrecision := Nat.sub_mul _ _ _
    show _ + (st.accrue s.height).rate.val * (st.accrue s.height).rest (st.accrue s.height).lastHeight * farmRpsPrecision ≤ _
    rw [hsub]
    omega
  | @unbond tx w e st st' entry r hst hr hstamp hu hf hn hsp =>
    rw [hf]
    have hfarm : r.farm = e.farmId := by rw [hr]
    obtain ⟨L, hb⟩ := hB.books _ _ hst
    obtain ⟨pool, hpool, hc⟩ := hC _ _ hst
    obtain ⟨h0, hshares, hdebt, total, debt, ht, hd, rfl⟩ := unbond_eq_some hu
    refine hC.set (f := r.farm) rfl (SortedMap.set_get_self (hfarm ▸ hpool)).symm fun hs => ?_
    have hs' : (st.accrue s.height).totalShares ≠ 0 := by
      rw [accrue_totalShares]
      intro h
      apply hs
      apply Fin.ext
      rw [ht, h]
      simp
    have hc := hb.covers_accrue hc s.height hs'
    have howed : ({ st.accrue s.height with totalShares := total, totalRewardDebt := debt } : FarmRewardState).owed ≤
        (st.accrue s.height).owed := by
      obtain ⟨-, -, hle⟩ := hb.stamp_le hfarm hstamp
      have hrps := hb.rps_accrue s.height
      have hmul : r.shares.val * entry.val ≤ r.shares.val * (st.accrue s.height).rps.val := Nat.mul_le_mul_left _ (by omega)
      unfold owed
      simp only [accrue_totalShares, accrue_totalRewardDebt]
      rw [ht, hd, Nat.sub_mul]
      omega
    exact (Nat.add_le_add_right howed _).trans hc

theorem FarmRun.covered {G : BatchCrypto} (hK : G.toKeccak.Ideal) {s₀ s : ScanReflection} (h₀ : NoFarms s₀) {paid : Word → Nat}
    (hrun : FarmRun G BondsBacked s₀ s paid) : FarmsCovered s.farms := by
  induction hrun with
  | start =>
    intro f st hst
    simp [h₀.rewards] at hst
  | step op hrun hback hop ih => exact (op.moves hK hop).keeps_covered (hrun.books hK h₀) hback ih

/-- In every state of a run whose first bonds are backed, the treasury of a farm covers what is outstanding to its live
positions at that height and everything the rest of the window can add to them. -/
theorem farm_treasury_covers {G : BatchCrypto} (hK : G.toKeccak.Ideal) {s₀ s : ScanReflection} (h₀ : NoFarms s₀)
    {paid : Word → Nat} (hrun : FarmRun G BondsBacked s₀ s paid) (hst : s.farmRewards.get f = some st) :
    ∃ (pool : PoolReserveState) (live : Finset Receipt), s.pools.get f = some pool ∧
      (∀ r, r ∈ live ↔ r.farm = f ∧ s.farmEntries.get (r.leaf G.toKeccak) ≠ none) ∧
      (live.Nonempty → ∑ r ∈ live, r.shares.val * ((st.accrue s.height).rps.val - stampOf G.toKeccak s r) +
        st.rate.val * st.rest s.height * farmRpsPrecision ≤ pool.reserveA.val * farmRpsPrecision) := by
  obtain ⟨L, hb⟩ := (hrun.books hK h₀).books f st hst
  obtain ⟨pool, hpool, hc⟩ := hrun.covered hK h₀ f st hst
  refine ⟨pool, L.live, hpool, hb.mem, fun hne => ?_⟩
  have hs : (st.accrue s.height).totalShares ≠ 0 := by
    rw [accrue_totalShares]
    exact hb.live_nonempty_iff.1 hne
  have hcov := hb.covers_accrue hc s.height hs
  obtain ⟨n, hn⟩ : ∃ n, st.raised s.height = n := ⟨_, rfl⟩
  have hb' := hb.accrue (h := s.height) le_rfl hn
  have hsum : ∑ r ∈ L.live, r.shares.val * ((st.accrue s.height).rps.val - stampOf G.toKeccak s r) = (L.raise n).owed := by
    refine Finset.sum_congr rfl fun r hr => ?_
    rw [RewardLedger.due, hb'.shares, hb'.index, RewardLedger.raise_entry, hb.stampOf_eq hr]
  have hl : (st.accrue s.height).lastHeight = s.height := by
    apply Fin.ext
    rw [accrue_lastHeight]
    exact max_eq_right hb.last
  have hrest : (st.accrue s.height).rest (st.accrue s.height).lastHeight = st.rest s.height := by simp [rest, hl]
  rw [accrue_rate, hrest] at hcov
  rw [hsum, hb'.owed_eq]
  exact hcov

/-! ## A refund before the first bond -/

theorem pow_62_lt : 2 ^ 62 < 2 ^ 64 := by decide

def drainLongFarm (K : Keccak) : FarmRefundEnvelope where
  farmId := longFarmId K
  launcherPubkey := []
  refundAmount := ⟨2 ^ 62, pow_62_lt⟩
  refundViewHeight := 0
  refundR := 0
  launcherSig := validSig

/-- The launcher takes the whole treasury back at genesis, the window stays open, and a share bonds: a live position whose
farm owes it `2^62` by the end of the window and holds nothing. -/
theorem drained_treasury_run (hK : K.Ideal) : ∃ s paid,
    FarmRun (clearCrypto K) (fun _ _ => True) (ScanReflection.genesis K) s paid ∧
    ∃ st pool, s.farmRewards.get (longFarmId K) = some st ∧ s.pools.get (longFarmId K) = some pool ∧
      s.farmEntries.get ((bondReceipt K 1).leaf K) ≠ none ∧ pool.reserveA.val < st.rate.val * st.rest s.height := by
  have hpool : (launched K).pools.get (longFarmId K) = some longFarm.treasury := SortedMap.get_set_self _ _ _
  have h0 : (⟨2 ^ 62, by decide⟩ : U 64) ≠ 0 := by decide
  have hsig : (clearCrypto K).bip340Verify (drainLongFarm K).launcherSig (farmRefundMsg (clearCrypto K).toCrypto (drainLongFarm K)
      ((clearTx 1).outputScriptpubkey 1)) (xOnly (drainLongFarm K).launcherPubkey) = true := by simp [clearCrypto, drainLongFarm]
  have hdest : p2trXonly ((clearTx 1).outputScriptpubkey 1) = some secpG.x := by decide
  have hret : (clearCrypto K).decompress ((clearCrypto K).pedersenCommitCompressed (2 ^ 62) 0) = some (clearPoint (2 ^ 62) 0) :=
    clearDecompress_compress (clearPoint (2 ^ 62) 0)
  obtain ⟨path, root, hroot, hrefund⟩ := exists_refund (G := clearCrypto K) (e := drainLongFarm K) noteTree_launched
    (Nat.two_pow_pos 32) launched_rewards rfl rfl hpool rfl h0 le_rfl hsig hdest (SortedMap.get_empty _) hret (spendWitness [] [] [])
  let s₁ : ScanReflection := { (launched K).withNote root (outpointKey K (wordOfNat 1, 1))
      ⟨commitmentHash K (clearPoint (2 ^ 62) 0).x (clearPoint (2 ^ 62) 0).y, wordOfNat 2, secpG.x, false⟩ with
    pools := (launched K).pools.set (longFarmId K)
      { longFarm.treasury with reserveA := U.saturatingSub longFarm.treasury.reserveA (drainLongFarm K).refundAmount } }
  have hX := noteTree_launched.append hK (hK.kn_ne_zero _) hroot
  have hroom : s₁.noteCount < 2 ^ 32 := show 1 < 2 ^ 32 by decide
  obtain ⟨w, root', -, hbond⟩ := exists_bond_clear (s := s₁) hX hroom (spendWitness [] [] []) launched_rewards rfl
    (longFarm_bond (K := K) (n := 1) (by decide)) (SortedMap.get_empty _)
  have hrun := (((FarmRun.start (G := clearCrypto K) (A := fun _ _ => True)).step _ trivial (launch_ok K w)).step _ trivial hrefund).step _
    trivial hbond
  refine ⟨_, _, hrun, { longFarmRewards K with totalShares := 1 },
    { longFarm.treasury with reserveA := U.saturatingSub longFarm.treasury.reserveA (drainLongFarm K).refundAmount }, ?_, ?_, ?_, ?_⟩
  · exact SortedMap.get_set_self _ _ _
  · exact SortedMap.get_set_self _ _ _
  · exact Option.ne_none_iff_exists'.2 ⟨0, SortedMap.get_set_self _ _ _⟩
  · show 2 ^ 62 - 2 ^ 62 < 2 ^ 31 * (2 ^ 31 - max 0 0)
    decide

/-- The claim fails along that run. -/
theorem treasury_not_covered : ∃ s paid, NoFarms (ScanReflection.genesis codeKeccak) ∧
    FarmRun (clearCrypto codeKeccak) (fun _ _ => True) (ScanReflection.genesis codeKeccak) s paid ∧
    ∃ st pool, s.farmRewards.get (longFarmId codeKeccak) = some st ∧ s.pools.get (longFarmId codeKeccak) = some pool ∧
      s.farmEntries.get ((bondReceipt codeKeccak 1).leaf codeKeccak) ≠ none ∧
      pool.reserveA.val < st.rate.val * st.rest s.height := by
  obtain ⟨s, paid, hrun, h⟩ := drained_treasury_run codeKeccak_ideal
  exact ⟨s, paid, ⟨rfl, rfl⟩, hrun, h⟩

/-- The same bond before any refund is backed, and its farm is covered. -/
theorem farm_treasury_covers_long_farm : ∃ s paid, NoFarms (ScanReflection.genesis codeKeccak) ∧
    FarmRun (clearCrypto codeKeccak) BondsBacked (ScanReflection.genesis codeKeccak) s paid ∧
    ∃ st pool, s.farmRewards.get (longFarmId codeKeccak) = some st ∧ s.pools.get (longFarmId codeKeccak) = some pool ∧
      st.rate.val * st.rest s.height ≤ pool.reserveA.val := by
  obtain ⟨w, root, -, hbond⟩ := exists_bonded (K := codeKeccak) (spendWitness [] [] []) (n := 1) (by decide)
  have h₀ : NoFarms (ScanReflection.genesis codeKeccak) := ⟨rfl, rfl⟩
  have hback : BondsBacked (launched codeKeccak)
      (.bond (clearTx 0) w [clearSpend (longFarmRewards codeKeccak).lpAsset 1] (bondOf codeKeccak 1)) := by
    intro st pool hst hpool _
    obtain rfl : longFarmRewards codeKeccak = st := Option.some.inj (launched_rewards.symm.trans hst)
    have hp : (launched codeKeccak).pools.get (longFarmId codeKeccak) = some longFarm.treasury :=
      SortedMap.get_set_self _ _ _
    obtain rfl : longFarm.treasury = pool := Option.some.inj (hp.symm.trans hpool)
    show 2 ^ 31 * (2 ^ 31 - max 0 0) ≤ 2 ^ 62
    decide
  have hrun := ((FarmRun.start (G := clearCrypto codeKeccak) (A := BondsBacked)).step (.init _ _ _ _) trivial
    (launch_ok codeKeccak w)).step _ hback hbond
  have hst : (bonded codeKeccak 1 root).farmRewards.get (longFarmId codeKeccak) =
      some { longFarmRewards codeKeccak with totalShares := 1 } := SortedMap.get_set_self _ _ _
  obtain ⟨pool, live, hpool, hlive, hcov⟩ := farm_treasury_covers codeKeccak_ideal h₀ hrun hst
  have hmem : bondReceipt codeKeccak 1 ∈ live := by
    refine (hlive _).2 ⟨rfl, ?_⟩
    exact Option.ne_none_iff_exists'.2 ⟨0, SortedMap.get_set_self _ _ _⟩
  have hle := (Nat.le_add_left _ _).trans (hcov ⟨_, hmem⟩)
  exact ⟨_, _, h₀, hrun, _, pool, hst, hpool, Nat.le_of_mul_le_mul_right hle (by decide)⟩

end Tacit
