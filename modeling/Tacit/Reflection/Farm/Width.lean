import Tacit.Reflection.Farm.Ledger
/-!
# The width of the accumulator

The caps of a farm-init keep the index itself within its 128 bits (lib.rs:6679-6690), whatever the order of steps. The
product of the index and the bonded shares is another matter: the index grows with the inverse of the shares bonded at
the time, so one early share can drive it to the top of its range, and the shares that come later multiply it. What
keeps every step within width is a bound on each bond, `BondFits`: its shares at the index, and what the window can
still add, fit.
-/
namespace Tacit

open Prog FarmRewardState

variable {K : Keccak} {F : Farms} {p : Nat} {f : Word} {st st' : FarmRewardState} {L : RewardLedger Receipt} {r : Receipt}

/-- The bond leaves room for itself and for the rest of the window. -/
def BondFits (st : FarmRewardState) (n h : U 64) : Prop :=
  st.totalShares.val + n.val < 2 ^ 64 ∧
  (st.totalShares.val + n.val) * (st.accrue h).rps.val + st.rate.val * st.rest h * farmRpsPrecision < 2 ^ 128

/-- The bonded shares at the index, and what the window can still add. -/
def FarmRewardState.Room (st : FarmRewardState) : Prop :=
  st.totalShares.val * st.rps.val + st.rate.val * st.rest st.lastHeight * farmRpsPrecision < 2 ^ 128

theorem FarmRewardState.span_add_rest (hs : st.Scheduled) (h : U 64) :
    st.span h + st.rest (st.accrue h).lastHeight = st.rest st.lastHeight := by
  have := hs.opens
  unfold span rest
  rw [accrue_lastHeight]
  omega

theorem Booked.room_accrue (hb : Booked K F p f st L) (hr : st.Room) (h : U 64) : (st.accrue h).Room := by
  have hmul := st.mul_raised_le h
  have hrest := span_add_rest hb.scheduled h
  unfold Room at hr ⊢
  rw [← hrest, Nat.mul_add, Nat.add_mul] at hr
  have he : (st.accrue h).rest (st.accrue h).lastHeight = st.rest (st.accrue h).lastHeight := by simp [rest]
  rw [hb.rps_accrue h, accrue_totalShares, accrue_rate, he, Nat.mul_add]
  omega

/-- Steps whose bonds fit. -/
def BondsFit (s : ScanReflection) : FarmOp → Prop
  | .bond _ _ _ e => ∀ st, s.farmRewards.get e.farmId = some st → BondFits st e.bondAmount s.height
  | _ => True

theorem FarmMove.keeps_room {s t : ScanReflection} {op : FarmOp} {pay paid : Word → Nat} (hm : FarmMove K s t op pay)
    (hB : FarmsBooked K s.farms paid) (hfit : BondsFit s op) (h : ∀ f st, s.farmRewards.get f = some st → st.Room) :
    ∀ f st, t.farmRewards.get f = some st → st.Room := by
  have hset : ∀ {q : Receipt} {st' : FarmRewardState}, t.farmRewards = s.farmRewards.set q.farm st' → st'.Room →
      ∀ f st, t.farmRewards.get f = some st → st.Room := by
    intro q st' hrw hst' f st hst
    rw [hrw, SortedMap.get_set] at hst
    split at hst
    · cases hst
      exact hst'
    · exact h f st hst
  have hsame : t.farmRewards = s.farmRewards → ∀ f st, t.farmRewards.get f = some st → st.Room := by
    intro hrw f st hst
    rw [hrw] at hst
    exact h f st hst
  cases hm with
  | idle hf _ _ => exact hsame (congrArg Farms.rewards hf)
  | advance _ hf _ _ => exact hsame (congrArg Farms.rewards hf)
  | fund _ _ hf _ _ => exact hsame (congrArg Farms.rewards hf)
  | refund _ _ _ _ hf _ _ => exact hsame (congrArg Farms.rewards hf)
  | @register tx w spends e g pool st hfresh hnew hz hs hfund hf hn hsp =>
    refine hset (q := ⟨g, 0, 0, 0, 0⟩) (congrArg Farms.rewards hf) ?_
    have hrest : st.rest st.lastHeight ≤ st.endHeight.val - st.startHeight.val := by
      unfold rest
      omega
    have := hs.fits hrest
    unfold Room
    rw [hz.1, hz.2.1]
    simp only [U.val_zero', Nat.zero_mul, Nat.zero_add]
    omega
  | @bond tx w spends e st st' entry r hst hr hfresh hbond hf hn hsp =>
    refine hset (congrArg Farms.rewards hf) ?_
    have hfits := hfit st hst
    obtain ⟨h0, rfl, total, debt, ht, hd, rfl⟩ := bond_eq_some hbond
    have hst : s.farms.rewards.get e.farmId = some st := hst
    obtain ⟨L, hb⟩ := hB.books _ _ hst
    have hl : (st.accrue s.height).lastHeight = s.height := by
      apply Fin.ext
      rw [accrue_lastHeight]
      exact max_eq_right hb.last
    have hshares : r.shares = e.bondAmount := by rw [hr]
    have h2 := hfits.2
    rw [hshares] at ht
    unfold Room
    simp only [rest, accrue_rate, accrue_startHeight, accrue_endHeight, hl, ht] at h2 ⊢
    exact h2
  | @harvest tx w e st st' entry stamp r pool hst hr hstamp hv hpool hle hf hn hsp =>
    refine hset (congrArg Farms.rewards hf) ?_
    obtain ⟨h0, hent, rfl, hpay, debt, hd, rfl⟩ := verifyFarmHarvest_eq_some hv
    obtain ⟨L, hb⟩ := hB.books _ _ hst
    exact hb.room_accrue (h _ _ hst) s.height
  | @unbond tx w e st st' entry r hst hr hstamp hu hf hn hsp =>
    refine hset (congrArg Farms.rewards hf) ?_
    obtain ⟨h0, -, -, total, debt, ht, hd, rfl⟩ := unbond_eq_some hu
    obtain ⟨L, hb⟩ := hB.books _ _ hst
    have hroom := hb.room_accrue (h _ _ hst) s.height
    have hle : total.val * (st.accrue s.height).rps.val ≤ st.totalShares.val * (st.accrue s.height).rps.val :=
      Nat.mul_le_mul_right _ (by omega)
    unfold Room at hroom ⊢
    rw [accrue_totalShares] at hroom
    exact lt_of_le_of_lt (Nat.add_le_add_right hle _) hroom

theorem FarmRun.room {G : BatchCrypto} (hK : G.toKeccak.Ideal) {s₀ s : ScanReflection} (h₀ : NoFarms s₀) {paid : Word → Nat}
    (hrun : FarmRun G BondsFit s₀ s paid) : ∀ f st, s.farmRewards.get f = some st → st.Room := by
  induction hrun with
  | start =>
    intro f st hst
    simp [h₀.rewards] at hst
  | step op hrun hfit hop ih => exact (op.moves hK hop).keeps_room (hrun.books hK h₀) hfit ih

/-- What is due to a position and the debt of all fit together. -/
theorem Booked.debt_add_due_lt (hb : Booked K F p f st L) (hroom : st.Room) (hr : r.farm = f) {entry : U 128}
    (hstamp : F.entries.get (r.leaf K) = some entry) (h : U 64) : entry.val ≤ (st.accrue h).rps.val ∧
    st.totalRewardDebt.val + r.shares.val * ((st.accrue h).rps.val - entry.val) < 2 ^ 128 := by
  obtain ⟨hm, hent, hle⟩ := hb.stamp_le hr hstamp
  have hroom' : st.totalShares.val * (st.accrue h).rps.val < 2 ^ 128 := by
    have := hb.room_accrue hroom h
    unfold Room at this
    rw [accrue_totalShares] at this
    omega
  obtain ⟨n, hn⟩ : ∃ n, st.raised h = n := ⟨_, rfl⟩
  have hrps : (st.accrue h).rps.val = st.rps.val + n := by rw [hb.rps_accrue h, hn]
  have hdue : (L.raise n).due r = r.shares.val * ((st.accrue h).rps.val - entry.val) := by
    rw [RewardLedger.due, RewardLedger.raise_shares, RewardLedger.raise_entry, RewardLedger.raise_index, hb.shares, hb.index, hent,
      hrps]
  have howed := (L.raise n).owed_add_debt
  have hle' : (L.raise n).due r ≤ (L.raise n).owed := RewardLedger.due_le_owed hm
  rw [RewardLedger.raise_total, RewardLedger.raise_debt, RewardLedger.raise_index, hb.total, hb.debt, hb.index, ← hrps] at howed
  refine ⟨by omega, ?_⟩
  rw [← hdue]
  omega

/-- A harvest that stays within width is refused for its amount only. -/
theorem verifyFarmHarvest_ne_none_iff {n reward : U 64} {entry : U 128} {h : U 64} (hn : n ≠ 0) (he : entry.val ≤ (st.accrue h).rps.val)
    (hd : st.totalRewardDebt.val + n.val * ((st.accrue h).rps.val - entry.val) < 2 ^ 128) :
    verifyFarmHarvest st h n entry reward ≠ none ↔
      reward.val * farmRpsPrecision ≤ n.val * ((st.accrue h).rps.val - entry.val) := by
  constructor
  · intro hv
    obtain ⟨⟨st', stamp⟩, hv⟩ := Option.ne_none_iff_exists'.1 hv
    obtain ⟨-, -, -, hpay, -⟩ := verifyFarmHarvest_eq_some hv
    exact hpay
  · intro hpay
    have hl : reward.val * farmRpsPrecision < 2 ^ 128 := by omega
    have hr : n.val * ((st.accrue h).rps.val - entry.val) < 2 ^ 128 := by omega
    have hent : ¬ entry > (st.accrue h).rps := not_lt.2 he
    have hok : st.harvestOk n entry reward h = true := by
      obtain ⟨x, hx⟩ : ∃ x, U.ofNat? 128 (reward.val * farmRpsPrecision) = some x := ⟨⟨_, hl⟩, dif_pos hl⟩
      obtain ⟨y, hy⟩ : ∃ y, U.ofNat? 128 (n.val * ((st.accrue h).rps.val - entry.val)) = some y := ⟨⟨_, hr⟩, dif_pos hr⟩
      have hxy : x ≤ y := by
        rw [Fin.le_def, U.ofNat?_eq_some.1 hx, U.ofNat?_eq_some.1 hy]
        exact hpay
      simp only [harvestOk, if_neg hn, if_neg hent, hx, hy, hxy, decide_true]
    simp only [verifyFarmHarvest, hok, Bool.not_true, Bool.false_eq_true, if_false, harvestCommit, U.checkedSub, if_pos he, U.ofNat?,
      Option.bind_eq_bind, Option.bind_some, dif_pos hr, U.checkedAdd, accrue_totalRewardDebt, dif_pos hd]
    exact Option.some_ne_none _

/-- In every state of a run whose bonds fit: no accrual saturates, a bond that fits is taken, and every live position
can leave and can be paid all that is due to it, at any height. -/
theorem farm_arithmetic_fits {G : BatchCrypto} (hK : G.toKeccak.Ideal) {s₀ s : ScanReflection} (h₀ : NoFarms s₀)
    {paid : Word → Nat} (hrun : FarmRun G BondsFit s₀ s paid) (hst : s.farmRewards.get f = some st) :
    (∀ h, (st.accrue h).rps.val = st.rps.val + st.rate.val * st.span h * farmRpsPrecision / st.totalShares.val) ∧
    (∀ n h, n ≠ 0 → BondFits st n h → st.bond n h ≠ none) ∧
    ∀ r : Receipt, r.farm = f → ∀ entry, s.farmEntries.get (r.leaf G.toKeccak) = some entry → ∀ h,
      st.unbond r.shares entry h ≠ none ∧
      ∀ reward, verifyFarmHarvest st h r.shares entry reward ≠ none ↔
        reward.val * farmRpsPrecision ≤ r.shares.val * ((st.accrue h).rps.val - entry.val) := by
  obtain ⟨L, hb⟩ := (hrun.books hK h₀).books f st hst
  have hroom := hrun.room hK h₀ f st hst
  refine ⟨hb.rps_accrue, fun n h hn hfit => ?_, fun r hr entry hstamp h => ?_⟩
  · refine bond_ne_none hn hfit.1 ?_
    have hle : st.totalRewardDebt.val ≤ st.totalShares.val * (st.accrue h).rps.val := by
      rw [← hb.debt, ← hb.total, hb.rps_accrue h, ← hb.index]
      exact L.debt_le.trans (Nat.mul_le_mul_left _ (Nat.le_add_right _ _))
    have h2 := hfit.2
    rw [Nat.add_mul] at h2
    omega
  · obtain ⟨hm, hent, hle⟩ := hb.stamp_le hr hstamp
    have h0 := hb.nonzero r hm
    obtain ⟨he, hd⟩ := hb.debt_add_due_lt hroom hr hstamp h
    exact ⟨hb.unbond_ne_none hr hstamp h, fun reward => verifyFarmHarvest_ne_none_iff h0 he hd⟩

/-- At the end of the window of the long farm the index of its only share is `2^126`, and four more shares overflow. -/
theorem longFarm_bond_overflows : ({ longFarmRewards K with totalShares := 1 } : FarmRewardState).bond 4 ⟨2 ^ 31, by decide⟩ = none := by
  obtain ⟨st, hst⟩ : ∃ st : FarmRewardState, st = { longFarmRewards K with totalShares := 1 } := ⟨_, rfl⟩
  rw [← hst]
  have hrate : st.rate.val = 2 ^ 31 := by rw [hst]; rfl
  have htotal : st.totalShares.val = 1 := by rw [hst]; rfl
  have hzero : st.rps.val = 0 := by rw [hst]; rfl
  have hspan : st.span ⟨2 ^ 31, by decide⟩ = 2 ^ 31 := by rw [hst]; rfl
  have hend : st.endHeight ≠ 0 := by
    intro h
    have hval : st.endHeight.val = 2 ^ 31 := by rw [hst]; rfl
    rw [h] at hval
    exact absurd hval (by decide)
  have hrps : (st.accrue ⟨2 ^ 31, by decide⟩).rps.val = 2 ^ 126 := by
    rw [accrue_rps hend, hzero, hrate, hspan, htotal]
    · decide
    · rw [hzero, hrate, hspan]
      decide
  have hmul : U.ofNat? 128 ((4 : U 64).val * (st.accrue ⟨2 ^ 31, by decide⟩).rps.val) = none := by
    rw [U.ofNat?_eq_none, hrps]
    decide
  have h4 : (4 : U 64) ≠ 0 := by decide
  simp only [bond, if_neg h4, hmul, Option.bind_eq_bind, Option.bind_none]

/-- A run from genesis: one share bonds early, and at the end of the window a bond of four shares is refused. -/
theorem bond_refused_for_width : ∃ s paid, NoFarms (ScanReflection.genesis codeKeccak) ∧
    FarmRun (clearCrypto codeKeccak) (fun _ _ => True) (ScanReflection.genesis codeKeccak) s paid ∧
    ∃ st, s.farmRewards.get (longFarmId codeKeccak) = some st ∧ st.totalShares.val = 1 ∧ st.bond 4 s.height = none := by
  obtain ⟨w, root, -, hbond⟩ := exists_bonded (K := codeKeccak) (spendWitness [] [] []) (n := 1) (by decide)
  have hrun := ((FarmRun.start (G := clearCrypto codeKeccak) (A := fun _ _ => True)).step _ trivial
    (launch_ok codeKeccak w)).step _ trivial hbond
  have hrun := hrun.step (.advance ⟨2 ^ 31, by decide⟩) trivial (t := { bonded codeKeccak 1 root with height := ⟨2 ^ 31, by decide⟩ }) rfl
  exact ⟨_, _, ⟨rfl, rfl⟩, hrun, _, SortedMap.get_set_self _ _ _, rfl, longFarm_bond_overflows⟩

theorem longFarm_bondFits : BondFits (longFarmRewards K) 1 0 := by
  have hacc : (longFarmRewards K).accrue 0 = longFarmRewards K := accrue_of_le (Nat.zero_le _)
  unfold BondFits
  rw [hacc]
  have h1 : (longFarmRewards K).totalShares.val + (1 : U 64).val = 1 := rfl
  have h2 : (longFarmRewards K).rps.val = 0 := rfl
  have h3 : (longFarmRewards K).rate.val = 2 ^ 31 := rfl
  have h4 : (longFarmRewards K).rest 0 = 2 ^ 31 := rfl
  rw [h1, h2, h3, h4]
  decide

/-- Its first share fits: every later step of the position is within width. -/
theorem farm_arithmetic_fits_long_farm : ∃ s paid, NoFarms (ScanReflection.genesis codeKeccak) ∧
    FarmRun (clearCrypto codeKeccak) BondsFit (ScanReflection.genesis codeKeccak) s paid ∧
    ∃ st entry, s.farmRewards.get (longFarmId codeKeccak) = some st ∧
      s.farmEntries.get ((bondReceipt codeKeccak 1).leaf codeKeccak) = some entry ∧ ∀ h, st.unbond 1 entry h ≠ none := by
  obtain ⟨w, root, -, hbond⟩ := exists_bonded (K := codeKeccak) (spendWitness [] [] []) (n := 1) (by decide)
  have h₀ : NoFarms (ScanReflection.genesis codeKeccak) := ⟨rfl, rfl⟩
  have hfit : BondsFit (launched codeKeccak) (.bond (clearTx 0) w [clearSpend (longFarmRewards codeKeccak).lpAsset 1] (bondOf codeKeccak 1)) := by
    intro st hst
    obtain rfl : longFarmRewards codeKeccak = st := by
      rw [show (bondOf codeKeccak 1).farmId = longFarmId codeKeccak from rfl, launched_rewards] at hst
      exact Option.some.inj hst
    exact longFarm_bondFits
  have hrun := ((FarmRun.start (G := clearCrypto codeKeccak) (A := BondsFit)).step (.init _ _ _ _) trivial (launch_ok codeKeccak w)).step _ hfit hbond
  have hst : (bonded codeKeccak 1 root).farmRewards.get (longFarmId codeKeccak) =
      some { longFarmRewards codeKeccak with totalShares := 1 } := SortedMap.get_set_self _ _ _
  have hstamp : (bonded codeKeccak 1 root).farmEntries.get ((bondReceipt codeKeccak 1).leaf codeKeccak) = some 0 :=
    SortedMap.get_set_self _ _ _
  have hfits := (farm_arithmetic_fits codeKeccak_ideal h₀ hrun hst).2.2 _ rfl 0 hstamp
  exact ⟨_, _, h₀, hrun, _, 0, hst, hstamp, fun h => (hfits h).1⟩

end Tacit
