import Tacit.Reflection.Farm.Progress
/-!
# The reward ledger of a farm

The state keeps a farm's positions as a map from receipt leaves to stamps, and their sums apart from it
(lib.rs:6685-6931). Behind every registered farm stands a `RewardLedger` over its receipts: `Booked` says that the two
sums are the ledger's, that the index is within the schedule, and that what was paid and what is owed stays within the
elapsed part of the window. Accrual is `raise`; a bond is `join`, a harvest `settle`, an unbond `leave`.
-/
namespace Tacit

open Prog

variable {K : Keccak} {F F' : Farms} {p : Nat} {f : Word} {st : FarmRewardState} {L : RewardLedger Receipt} {r : Receipt}

/-- The ledger `L` of the farm `f`, whose positions have been paid `p`. -/
structure Booked (K : Keccak) (F : Farms) (p : Nat) (f : Word) (st : FarmRewardState) (L : RewardLedger Receipt) : Prop where
  mem : ∀ r, r ∈ L.live ↔ r.farm = f ∧ F.entries.get (r.leaf K) ≠ none
  shares : ∀ r, L.shares r = r.shares.val
  entry : ∀ r ∈ L.live, ∀ e, F.entries.get (r.leaf K) = some e → L.entry r = e.val
  asset : ∀ r ∈ L.live, r.asset = st.lpAsset
  nonzero : ∀ r ∈ L.live, r.shares ≠ 0
  index : L.index = st.rps.val
  total : L.total = st.totalShares.val
  debt : L.debt = st.totalRewardDebt.val
  scheduled : st.Scheduled
  last : st.lastHeight.val ≤ F.height.val
  reached : st.rps.val ≤ st.rate.val * st.elapsed st.lastHeight * farmRpsPrecision
  budget : p * farmRpsPrecision + L.owed ≤ st.rate.val * st.elapsed st.lastHeight * farmRpsPrecision

namespace FarmRewardState

/-- The elapsed part of the window at an accrual is that of the accrual before and the span between. -/
theorem elapsed_accrue (hs : st.Scheduled) (h : U 64) :
    st.elapsed (st.accrue h).lastHeight = st.elapsed st.lastHeight + st.span h := by
  have := hs.opens
  unfold elapsed span
  rw [accrue_lastHeight]
  omega

theorem elapsed_add_rest (hs : st.Scheduled) (h : U 64) : st.elapsed h + st.rest h = st.endHeight.val - st.startHeight.val := by
  have := hs.opens
  unfold elapsed rest
  omega

/-- The whole window, scaled, is one bit short of the accumulator. -/
theorem Scheduled.fits (hs : st.Scheduled) {n : Nat} (hn : n ≤ st.endHeight.val - st.startHeight.val) :
    st.rate.val * n * farmRpsPrecision < 2 ^ 127 := by
  have h1 : st.rate.val * n ≤ st.rate.val * (st.endHeight.val - st.startHeight.val) := Nat.mul_le_mul_left _ hn
  have h2 : st.rate.val * n < 2 ^ 63 := h1.trans_lt hs.width
  calc st.rate.val * n * farmRpsPrecision < 2 ^ 63 * farmRpsPrecision := Nat.mul_lt_mul_of_pos_right h2 (by decide)
    _ = 2 ^ 127 := by decide

theorem accrue_scheduled (hs : st.Scheduled) (h : U 64) : (st.accrue h).Scheduled :=
  ⟨by simpa using hs.opens, by simpa using hs.width⟩

end FarmRewardState

open FarmRewardState

/-! ## What each operation does to the ledger -/

/-- What an accrual to `h` adds to the index. -/
def FarmRewardState.raised (st : FarmRewardState) (h : U 64) : Nat :=
  st.rate.val * st.span h * farmRpsPrecision / st.totalShares.val

theorem FarmRewardState.mul_raised_le (h : U 64) :
    st.totalShares.val * st.raised h ≤ st.rate.val * st.span h * farmRpsPrecision := by
  rw [raised]
  exact Nat.mul_div_le _ _

theorem FarmRewardState.raised_le (h : U 64) : st.raised h ≤ st.rate.val * st.span h * farmRpsPrecision := by
  rw [raised]
  exact Nat.div_le_self _ _

namespace Booked

theorem endHeight_ne (hb : Booked K F p f st L) : st.endHeight ≠ 0 := by
  intro h
  have := hb.scheduled.opens
  rw [h] at this
  exact absurd this (Nat.not_lt_zero _)

/-- The accumulator at `h`, without saturation. -/
theorem rps_accrue (hb : Booked K F p f st L) (h : U 64) : (st.accrue h).rps.val = st.rps.val + st.raised h := by
  rw [raised]
  refine accrue_rps hb.endHeight_ne ?_
  have he : st.elapsed st.lastHeight + st.span h ≤ st.endHeight.val - st.startHeight.val := by
    rw [← elapsed_accrue hb.scheduled h]
    unfold elapsed
    omega
  have hfit := hb.scheduled.fits he
  have hr := hb.reached
  rw [Nat.mul_add, Nat.add_mul] at hfit
  omega

theorem accrue (hb : Booked K F p f st L) {h : U 64} (hh : h.val ≤ F.height.val) {n : Nat} (hn : st.raised h = n) :
    Booked K F p f (st.accrue h) (L.raise n) := by
  have hadd : st.rate.val * st.elapsed (st.accrue h).lastHeight * farmRpsPrecision =
      st.rate.val * st.elapsed st.lastHeight * farmRpsPrecision + st.rate.val * st.span h * farmRpsPrecision := by
    rw [elapsed_accrue hb.scheduled h, Nat.mul_add, Nat.add_mul]
  have hel : (st.accrue h).elapsed (st.accrue h).lastHeight = st.elapsed (st.accrue h).lastHeight := by simp [elapsed]
  have hmul := st.mul_raised_le h
  have hdiv := st.raised_le h
  have hrps := hb.rps_accrue h
  rw [hn] at hmul hdiv hrps
  have hreached := hb.reached
  have hbudget := hb.budget
  refine ⟨?_, ?_, ?_, ?_, ?_, ?_, ?_, ?_, accrue_scheduled hb.scheduled h, ?_, ?_, ?_⟩
  · simpa only [RewardLedger.raise_live] using hb.mem
  · simpa only [RewardLedger.raise_shares] using hb.shares
  · simpa only [RewardLedger.raise_live, RewardLedger.raise_entry] using hb.entry
  · simpa only [RewardLedger.raise_live, accrue_lpAsset] using hb.asset
  · simpa only [RewardLedger.raise_live] using hb.nonzero
  · rw [hrps, RewardLedger.raise_index, hb.index]
  · simpa only [RewardLedger.raise_total, accrue_totalShares] using hb.total
  · simpa only [RewardLedger.raise_debt, accrue_totalRewardDebt] using hb.debt
  · have := hb.last
    rw [accrue_lastHeight]
    omega
  · rw [accrue_rate, hel, hadd, hrps]
    omega
  · rw [accrue_rate, hel, hadd, L.raise_owed, hb.total]
    omega

/-- Another farm's step leaves the ledger alone. -/
theorem frame (hb : Booked K F p f st L) (he : ∀ r : Receipt, r.farm = f → F'.entries.get (r.leaf K) = F.entries.get (r.leaf K))
    (hh : F.height.val ≤ F'.height.val) : Booked K F' p f st L where
  mem := by
    intro r
    rw [hb.mem]
    refine and_congr_right fun hr => ?_
    rw [he r hr]
  shares := hb.shares
  entry := by
    intro r hr e hre
    exact hb.entry r hr e (he r ((hb.mem r).1 hr).1 ▸ hre)
  asset := hb.asset
  nonzero := hb.nonzero
  index := hb.index
  total := hb.total
  debt := hb.debt
  scheduled := hb.scheduled
  last := hb.last.trans hh
  reached := hb.reached
  budget := hb.budget

section Position

variable (hK : K.Ideal) {T : U 64} {D : U 128}

include hK

theorem join (hb : Booked K F p f st L) (hr : r.farm = f) (ha : r.asset = st.lpAsset) (h0 : r.shares ≠ 0)
    (hfresh : F.entries.get (r.leaf K) = none) (ht : T.val = st.totalShares.val + r.shares.val)
    (hd : D.val = st.totalRewardDebt.val + r.shares.val * st.rps.val) :
    Booked K { F with entries := F.entries.set (r.leaf K) st.rps } p f
      { st with totalShares := T, totalRewardDebt := D } (L.join r) := by
  have hlive : r ∉ L.live := fun h => ((hb.mem r).1 h).2 hfresh
  have hleaf : ∀ q, r.leaf K = q.leaf K → r = q := fun q h => Receipt.leaf_injective hK h
  refine ⟨?_, hb.shares, ?_, ?_, ?_, hb.index, ?_, ?_, ⟨hb.scheduled.opens, hb.scheduled.width⟩, hb.last, hb.reached, ?_⟩
  · intro q
    simp only [RewardLedger.join, Finset.mem_insert, SortedMap.get_set, hb.mem]
    by_cases hq : q = r
    · subst hq
      simp [hr]
    · have : ¬ r.leaf K = q.leaf K := fun h => hq (hleaf q h).symm
      simp [hq, this]
  · intro q hq e hqe
    rw [SortedMap.get_set] at hqe
    by_cases hqr : q = r
    · subst hqr
      rw [if_pos rfl] at hqe
      cases hqe
      rw [RewardLedger.join_entry_self, hb.index]
    · rw [if_neg fun h => hqr (hleaf q h).symm] at hqe
      rw [RewardLedger.join_entry_of_ne hqr]
      exact hb.entry q ((Finset.mem_insert.1 hq).resolve_left hqr) e hqe
  · intro q hq
    rcases Finset.mem_insert.1 hq with rfl | hq
    · exact ha
    · exact hb.asset q hq
  · intro q hq
    rcases Finset.mem_insert.1 hq with rfl | hq
    · exact h0
    · exact hb.nonzero q hq
  · rw [L.join_total hlive, hb.shares, hb.total, ht]
  · rw [L.join_debt hlive, hb.shares, hb.debt, hb.index, hd]
  · rw [L.join_owed hlive]
    exact hb.budget

theorem settle (hb : Booked K F p f st L) (hr : r ∈ L.live) {x : Nat} (hx : x * farmRpsPrecision ≤ L.due r)
    (hd : D.val = st.totalRewardDebt.val + L.due r) :
    Booked K { F with entries := F.entries.set (r.leaf K) st.rps } (p + x) f { st with totalRewardDebt := D } (L.settle r) := by
  have hleaf : ∀ q, r.leaf K = q.leaf K → r = q := fun q h => Receipt.leaf_injective hK h
  have hrf := (hb.mem r).1 hr
  refine ⟨?_, hb.shares, ?_, hb.asset, hb.nonzero, hb.index, hb.total, ?_, ⟨hb.scheduled.opens, hb.scheduled.width⟩, hb.last,
    hb.reached, ?_⟩
  · intro q
    simp only [RewardLedger.settle, SortedMap.get_set, hb.mem]
    by_cases hq : q = r
    · subst hq
      simp [hrf.1, hrf.2]
    · have : ¬ r.leaf K = q.leaf K := fun h => hq (hleaf q h).symm
      simp [this]
  · intro q hq e hqe
    rw [SortedMap.get_set] at hqe
    by_cases hqr : q = r
    · subst hqr
      rw [if_pos rfl] at hqe
      cases hqe
      rw [RewardLedger.settle_entry_self, hb.index]
    · rw [if_neg fun h => hqr (hleaf q h).symm] at hqe
      rw [RewardLedger.settle_entry_of_ne hqr]
      exact hb.entry q hq e hqe
  · rw [L.settle_debt hr, hb.debt, hd]
  · have h1 := L.settle_owed hr
    have h2 := hb.budget
    rw [Nat.add_mul]
    show _ ≤ st.rate.val * st.elapsed st.lastHeight * farmRpsPrecision
    omega

theorem leave (hb : Booked K F p f st L) (hr : r ∈ L.live) (ht : T.val = st.totalShares.val - r.shares.val)
    (hd : D.val = st.totalRewardDebt.val - r.shares.val * L.entry r) :
    Booked K { F with entries := F.entries.erase (r.leaf K) } p f
      { st with totalShares := T, totalRewardDebt := D } (L.leave r) := by
  have hleaf : ∀ q, r.leaf K = q.leaf K → r = q := fun q h => Receipt.leaf_injective hK h
  refine ⟨?_, hb.shares, ?_, ?_, ?_, hb.index, ?_, ?_, ⟨hb.scheduled.opens, hb.scheduled.width⟩, hb.last, hb.reached, ?_⟩
  · intro q
    simp only [RewardLedger.leave, Finset.mem_erase, SortedMap.get_erase, hb.mem]
    by_cases hq : q = r
    · subst hq
      simp
    · have : ¬ r.leaf K = q.leaf K := fun h => hq (hleaf q h).symm
      simp [hq, this]
  · intro q hq e hqe
    obtain ⟨hqr, hq⟩ := Finset.mem_erase.1 hq
    rw [SortedMap.get_erase, if_neg fun h => hqr (hleaf q h).symm] at hqe
    exact hb.entry q hq e hqe
  · exact fun q hq => hb.asset q (Finset.mem_of_mem_erase hq)
  · exact fun q hq => hb.nonzero q (Finset.mem_of_mem_erase hq)
  · have := L.leave_total hr
    rw [hb.shares, hb.total] at this
    show _ = T.val
    omega
  · have := L.leave_debt hr
    rw [hb.shares, hb.debt] at this
    show _ = D.val
    omega
  · have h1 := L.leave_owed hr
    have h2 := hb.budget
    show _ ≤ st.rate.val * st.elapsed st.lastHeight * farmRpsPrecision
    omega

end Position

/-- A stamp is never ahead of the index. -/
theorem stamp_le (hb : Booked K F p f st L) (hr : r.farm = f) {e : U 128} (he : F.entries.get (r.leaf K) = some e) :
    r ∈ L.live ∧ L.entry r = e.val ∧ e.val ≤ st.rps.val := by
  have hm : r ∈ L.live := (hb.mem r).2 ⟨hr, by simp [he]⟩
  have hent := hb.entry r hm e he
  refine ⟨hm, hent, ?_⟩
  rw [← hent, ← hb.index]
  exact L.entry_le r hm

/-- A live position can leave, at any height. -/
theorem unbond_ne_none (hb : Booked K F p f st L) (hr : r.farm = f) {e : U 128} (he : F.entries.get (r.leaf K) = some e) (h : U 64) :
    st.unbond r.shares e h ≠ none := by
  obtain ⟨hm, hent, -⟩ := hb.stamp_le hr he
  refine FarmRewardState.unbond_ne_none (hb.nonzero r hm) ?_ ?_
  · rw [← hb.shares, ← hb.total]
    exact RewardLedger.shares_le_total hm
  · rw [← hent, ← hb.shares, ← hb.debt]
    exact RewardLedger.le_debt hm

end Booked

/-! ## All farms -/

/-- Every stamp is a position of a registered farm, and every registered farm is booked. -/
structure FarmsBooked (K : Keccak) (F : Farms) (paid : Word → Nat) : Prop where
  stamps : ∀ x, F.entries.get x ≠ none → ∃ r : Receipt, r.leaf K = x ∧ F.rewards.get r.farm ≠ none
  unpaid : ∀ f, F.rewards.get f = none → paid f = 0
  books : ∀ f st, F.rewards.get f = some st → ∃ L, Booked K F (paid f) f st L

variable {paid paid' : Word → Nat}

theorem farmsBooked_empty {s : ScanReflection} (h : NoFarms s) : FarmsBooked K s.farms 0 where
  stamps := by
    intro x hx
    exact absurd (by simp [ScanReflection.farms, h.entries]) hx
  unpaid := fun _ _ => rfl
  books := by
    intro f st hst
    simp [ScanReflection.farms, h.rewards] at hst

/-- A step of one position touches the stamp of its receipt and the record of its farm. -/
theorem FarmsBooked.position (hK : K.Ideal) (hB : FarmsBooked K F paid) {st' : FarmRewardState}
    (hbook : ∃ L, Booked K F' (paid' r.farm) r.farm st' L)
    (hrw : F'.rewards = F.rewards.set r.farm st') (hh : F'.height = F.height)
    (he : ∀ x, x ≠ r.leaf K → F'.entries.get x = F.entries.get x) (hp : ∀ g, g ≠ r.farm → paid' g = paid g) :
    FarmsBooked K F' paid' where
  stamps := by
    intro x hx
    by_cases hxr : x = r.leaf K
    · exact ⟨r, hxr.symm, by simp [hrw]⟩
    · rw [he x hxr] at hx
      obtain ⟨q, hq, hfarm⟩ := hB.stamps x hx
      refine ⟨q, hq, ?_⟩
      rw [hrw, SortedMap.get_set]
      split
      · simp
      · exact hfarm
  unpaid := by
    intro g hg
    have hne : g ≠ r.farm := by
      rintro rfl
      simp [hrw] at hg
    rw [hrw, SortedMap.get_set, if_neg hne.symm] at hg
    rw [hp g hne]
    exact hB.unpaid g hg
  books := by
    intro g q hg
    rw [hrw, SortedMap.get_set] at hg
    by_cases hgr : r.farm = g
    · subst hgr
      rw [if_pos rfl] at hg
      cases hg
      exact hbook
    · rw [if_neg hgr] at hg
      obtain ⟨L, hb⟩ := hB.books g q hg
      refine ⟨L, ?_⟩
      rw [hp g (Ne.symm hgr)]
      refine hb.frame (fun r' hr' => he _ fun h => hgr ?_) (by rw [hh])
      rw [← Receipt.leaf_injective hK h]
      exact hr'

/-- The same farms, later or with other treasuries. -/
theorem FarmsBooked.frame (hB : FarmsBooked K F paid) (hrw : F'.rewards = F.rewards) (he : F'.entries = F.entries)
    (hh : F.height.val ≤ F'.height.val) : FarmsBooked K F' paid where
  stamps := by
    intro x hx
    rw [he] at hx
    rw [hrw]
    exact hB.stamps x hx
  unpaid := by
    intro g hg
    exact hB.unpaid g (hrw ▸ hg)
  books := by
    intro g st hg
    obtain ⟨L, hb⟩ := hB.books g st (hrw ▸ hg)
    exact ⟨L, hb.frame (fun _ _ => by rw [he]) hh⟩

/-- A new farm starts with an empty ledger. -/
theorem FarmsBooked.register (hK : K.Ideal) (hB : FarmsBooked K F paid) (hnew : F.rewards.get f = none)
    (hz : st.totalShares = 0 ∧ st.rps = 0 ∧ st.totalRewardDebt = 0 ∧ st.lastHeight = F.height) (hs : st.Scheduled)
    (hrw : F'.rewards = F.rewards.set f st) (he : F'.entries = F.entries) (hh : F'.height = F.height) :
    FarmsBooked K F' paid where
  stamps := by
    intro x hx
    rw [he] at hx
    obtain ⟨r, hr, hfarm⟩ := hB.stamps x hx
    refine ⟨r, hr, ?_⟩
    rw [hrw, SortedMap.get_set]
    split
    · simp
    · exact hfarm
  unpaid := by
    intro g hg
    rw [hrw, SortedMap.get_set] at hg
    split at hg
    · cases hg
    · exact hB.unpaid g hg
  books := by
    intro g q hg
    rw [hrw, SortedMap.get_set] at hg
    by_cases hgf : f = g
    · subst hgf
      rw [if_pos rfl] at hg
      cases hg
      obtain ⟨ht, hr, hd, hl⟩ := hz
      have hnone : ∀ r, r ∉ (RewardLedger.empty (fun r : Receipt => r.shares.val) 0).live := fun r => Finset.notMem_empty r
      refine ⟨.empty (fun r => r.shares.val) 0, ?_, fun _ => rfl, fun r hr => absurd hr (hnone r), fun r hr => absurd hr (hnone r),
        fun r hr => absurd hr (hnone r), ?_, ?_, ?_, hs, ?_, ?_, ?_⟩
      · intro r
        refine iff_of_false (hnone r) fun ⟨hrf, hne⟩ => ?_
        rw [he] at hne
        obtain ⟨q, hq, hfarm⟩ := hB.stamps _ hne
        rw [Receipt.leaf_injective hK hq, hrf] at hfarm
        exact hfarm hnew
      · rw [hr]
        rfl
      · rw [RewardLedger.empty_total, ht]
        rfl
      · rw [RewardLedger.empty_debt, hd]
        rfl
      · rw [hl, hh]
      · rw [hr]
        exact Nat.zero_le _
      · rw [hB.unpaid f hnew, RewardLedger.empty_owed, Nat.zero_mul]
        exact Nat.zero_le _
    · rw [if_neg hgf] at hg
      obtain ⟨L, hb⟩ := hB.books g q hg
      exact ⟨L, hb.frame (fun _ _ => by rw [he]) (by rw [hh])⟩

/-- Every move keeps the books. -/
theorem FarmMove.keeps_books (hK : K.Ideal) {s t : ScanReflection} {op : FarmOp} {pay : Word → Nat}
    (hm : FarmMove K s t op pay) (hB : FarmsBooked K s.farms paid) : FarmsBooked K t.farms (paid + pay) := by
  cases hm with
  | idle hf _ _ => simpa [hf] using hB
  | advance hle hf _ _ =>
    rw [hf, add_zero]
    exact hB.frame rfl rfl hle
  | fund _ _ hf _ _ =>
    rw [hf, add_zero]
    exact hB.frame rfl rfl le_rfl
  | register _ hnew hz hs _ hf _ _ =>
    rw [hf, add_zero]
    exact hB.register hK hnew hz hs rfl rfl rfl
  | refund _ _ _ _ hf _ _ =>
    rw [hf, add_zero]
    exact hB.frame rfl rfl le_rfl
  | @bond tx w spends e st st' entry r hst hr hfresh hbond hf hn hsp =>
    rw [hf, add_zero]
    have hst : s.farms.rewards.get r.farm = some st := by rw [hr]; exact hst
    obtain ⟨L, hb⟩ := hB.books _ _ hst
    obtain ⟨h0, rfl, total, debt, ht, hd, rfl⟩ := bond_eq_some hbond
    obtain ⟨n, hn⟩ : ∃ n, st.raised s.height = n := ⟨_, rfl⟩
    have hb := hb.accrue (h := s.height) le_rfl hn
    have ha : r.asset = (st.accrue s.height).lpAsset := by rw [hr, accrue_lpAsset]
    have hb := hb.join (T := total) (D := debt) hK rfl ha h0 hfresh (by rw [accrue_totalShares, ht]) (by rw [accrue_totalRewardDebt, hd])
    refine hB.position hK (r := r) ⟨_, hb.frame (fun _ _ => rfl) le_rfl⟩ rfl rfl (fun x hx => ?_) fun _ _ => rfl
    exact (SortedMap.get_set _ _ _ _).trans (if_neg hx.symm)
  | @harvest tx w e st st' entry stamp r pool hst hr hstamp hv hpool hle hf hn hsp =>
    rw [hf]
    have hfarm : r.farm = e.farmId := by rw [hr]
    have hst : s.farms.rewards.get r.farm = some st := by rw [hfarm]; exact hst
    obtain ⟨L, hb⟩ := hB.books _ _ hst
    obtain ⟨h0, hent, rfl, hpay, debt, hd, rfl⟩ := verifyFarmHarvest_eq_some hv
    obtain ⟨n, hn⟩ : ∃ n, st.raised s.height = n := ⟨_, rfl⟩
    have hb := hb.accrue (h := s.height) le_rfl hn
    obtain ⟨hm, he, -⟩ := hb.stamp_le rfl hstamp
    have hdue : (L.raise n).due r = r.shares.val * ((st.accrue s.height).rps.val - entry.val) := by
      rw [RewardLedger.due, hb.shares, hb.index, he]
    have hb := hb.settle (D := debt) hK hm (hdue ▸ hpay) (by rw [accrue_totalRewardDebt, hd, hdue])
    refine hB.position hK (r := r) ⟨(L.raise n).settle r, ?_⟩ rfl rfl (fun x hx => ?_) fun g hg => ?_
    · have hp : (paid + fun f => if e.farmId = f then e.rewardAmount.val else 0) r.farm = paid r.farm + e.rewardAmount.val := by
        simp [hfarm]
      rw [hp]
      exact hb.frame (fun _ _ => rfl) le_rfl
    · exact (SortedMap.get_set _ _ _ _).trans (if_neg hx.symm)
    · simp [hfarm ▸ hg.symm]
  | @unbond tx w e st st' entry r hst hr hstamp hu hf hn hsp =>
    rw [hf, add_zero]
    have hst : s.farms.rewards.get r.farm = some st := by rw [hr]; exact hst
    obtain ⟨L, hb⟩ := hB.books _ _ hst
    obtain ⟨h0, -, -, total, debt, ht, hd, rfl⟩ := unbond_eq_some hu
    obtain ⟨n, hn⟩ : ∃ n, st.raised s.height = n := ⟨_, rfl⟩
    have hb := hb.accrue (h := s.height) le_rfl hn
    obtain ⟨hm, he, -⟩ := hb.stamp_le rfl hstamp
    have hb := hb.leave (T := total) (D := debt) hK hm (by rw [accrue_totalShares, ht])
      (by rw [accrue_totalRewardDebt, he, hd])
    refine hB.position hK (r := r) ⟨_, hb.frame (fun _ _ => rfl) le_rfl⟩ rfl rfl (fun x hx => ?_) fun _ _ => rfl
    exact (SortedMap.get_erase _ _ _).trans (if_neg hx.symm)

/-- In every state of a run all farms are booked. -/
theorem FarmRun.books {G : BatchCrypto} (hK : G.toKeccak.Ideal) {A : ScanReflection → FarmOp → Prop} {s₀ s : ScanReflection}
    (h₀ : NoFarms s₀) (hrun : FarmRun G A s₀ s paid) : FarmsBooked G.toKeccak s.farms paid := by
  induction hrun with
  | start => exact farmsBooked_empty h₀
  | step op _ _ hop ih => exact (op.moves hK hop).keeps_books hK ih

/-! ## One block -/

/-- At the height of the state the position has nothing more to take. -/
def Settled (K : Keccak) (F : Farms) (r : Receipt) : Prop :=
  ∃ st, F.rewards.get r.farm = some st ∧ st.lpAsset = r.asset ∧
    ∀ e, F.entries.get (r.leaf K) = some e → e = (st.accrue F.height).rps

/-- A step of some position stamps it with the accrued index or clears its stamp. -/
theorem Settled.position (hK : K.Ideal) (h : Settled K F r) {q : Receipt} {st' : FarmRewardState}
    (hst : F.rewards.get q.farm = some st) (hrw : F'.rewards = F.rewards.set q.farm st') (hh : F'.height = F.height)
    (he : ∀ x, x ≠ q.leaf K → F'.entries.get x = F.entries.get x)
    (hq : ∀ e, F'.entries.get (q.leaf K) = some e → e = (st.accrue F.height).rps) (ha : st'.lpAsset = st.lpAsset)
    (hr : (st'.accrue F.height).rps = (st.accrue F.height).rps) : Settled K F' r := by
  obtain ⟨sr, hsr, hasset, hstamp⟩ := h
  have hstamp' : ∀ e, r ≠ q → F'.entries.get (r.leaf K) = some e → e = (sr.accrue F.height).rps := by
    intro e hrq hre
    rw [he _ fun h => hrq (Receipt.leaf_injective hK h)] at hre
    exact hstamp e hre
  by_cases hfarm : q.farm = r.farm
  · rw [hfarm, hsr] at hst
    cases hst
    refine ⟨st', by rw [hrw, hfarm, SortedMap.get_set, if_pos rfl], ha.trans hasset, fun e hre => ?_⟩
    rw [hh, hr]
    by_cases hrq : r = q
    · subst hrq
      exact hq e hre
    · exact hstamp' e hrq hre
  · refine ⟨sr, by rw [hrw, SortedMap.get_set, if_neg hfarm, hsr], hasset, fun e hre => ?_⟩
    rw [hh]
    exact hstamp' e (fun h => hfarm (h ▸ rfl)) hre

theorem FarmMove.keeps_settled (hK : K.Ideal) {s t : ScanReflection} {op : FarmOp} {pay : Word → Nat}
    (hm : FarmMove K s t op pay) (hh : t.height = s.height) (h : Settled K s.farms r) : Settled K t.farms r := by
  cases hm with
  | idle hf _ _ => rwa [hf]
  | @advance height _ hf _ _ =>
    have : height = s.height := by
      rw [← hh]
      exact (congrArg Farms.height hf).symm
    rw [hf, this]
    exact h
  | fund _ _ hf _ _ =>
    rw [hf]
    exact h
  | @register tx w spends e f pool st _ hnew _ _ _ hf _ _ =>
    rw [hf]
    obtain ⟨sr, hsr, hrest⟩ := h
    have hne : f ≠ r.farm := by
      rintro rfl
      exact absurd (hnew.symm.trans hsr) (by simp)
    exact ⟨sr, by simpa [hne] using hsr, hrest⟩
  | refund _ _ _ _ hf _ _ =>
    rw [hf]
    exact h
  | @bond tx w spends e st st' entry q hst hq hfresh hbond hf hn hsp =>
    rw [hf]
    obtain ⟨h0, rfl, total, debt, ht, hd, rfl⟩ := bond_eq_some hbond
    refine h.position hK (q := q) (by rw [hq]; exact hst) rfl rfl (fun x hx => ?_) (fun e he => ?_) accrue_lpAsset
      (rps_accrue_of_accrued rfl rfl)
    · exact (SortedMap.get_set _ _ _ _).trans (if_neg hx.symm)
    · simpa [eq_comm] using he
  | @harvest tx w e st st' entry stamp q pool hst hq hstamp hv hpool hle hf hn hsp =>
    rw [hf]
    obtain ⟨h0, hent, rfl, hpay, debt, hd, rfl⟩ := verifyFarmHarvest_eq_some hv
    refine h.position hK (q := q) (by rw [hq]; exact hst) rfl rfl (fun x hx => ?_) (fun e he => ?_) accrue_lpAsset
      (rps_accrue_of_accrued rfl rfl)
    · exact (SortedMap.get_set _ _ _ _).trans (if_neg hx.symm)
    · simpa [eq_comm] using he
  | @unbond tx w e st st' entry q hst hq hstamp hu hf hn hsp =>
    rw [hf]
    obtain ⟨h0, -, -, total, debt, ht, hd, rfl⟩ := unbond_eq_some hu
    refine h.position hK (q := q) (by rw [hq]; exact hst) rfl rfl (fun x hx => ?_) (fun e he => ?_) accrue_lpAsset
      (rps_accrue_of_accrued rfl rfl)
    · exact (SortedMap.get_erase _ _ _).trans (if_neg hx.symm)
    · simp at he

/-- A harvest settles its position. -/
theorem FarmMove.settles {s t : ScanReflection} {tx : Tx} {w : TxWitness} {e : LpHarvestEnvelope} {pay : Word → Nat}
    (hm : FarmMove K s t (.harvest tx w e) pay) (hpay : pay e.farmId ≠ 0) :
    ∃ st, s.farmRewards.get e.farmId = some st ∧
      Settled K t.farms ⟨e.farmId, st.lpAsset, e.shares, e.ownerCommit, e.oldNonce⟩ := by
  cases hm with
  | idle _ _ _ => exact absurd rfl hpay
  | @harvest _ _ _ st st' entry stamp q pool hst hq hstamp hv hpool hle hf hn hsp =>
    obtain ⟨h0, hent, rfl, hpay, debt, hd, rfl⟩ := verifyFarmHarvest_eq_some hv
    refine ⟨st, hst, ?_⟩
    rw [← hq, hf]
    refine ⟨_, SortedMap.get_set_self _ _ _, ?_, fun e he => ?_⟩
    · rw [hq]
      exact accrue_lpAsset
    · have he : e = (st.accrue s.height).rps := by simpa [eq_comm] using he
      rw [he]
      symm
      exact rps_accrue_of_accrued rfl rfl

/-- A settled position takes nothing. -/
theorem FarmMove.pays_nothing {s t : ScanReflection} {tx : Tx} {w : TxWitness} {e : LpHarvestEnvelope} {pay : Word → Nat}
    (hm : FarmMove K s t (.harvest tx w e) pay) {a : Word}
    (h : Settled K s.farms ⟨e.farmId, a, e.shares, e.ownerCommit, e.oldNonce⟩) : pay = 0 := by
  cases hm with
  | idle _ _ _ => rfl
  | @harvest _ _ _ st st' entry stamp q pool hst hq hstamp hv hpool hle hf hn hsp =>
    obtain ⟨sr, hsr, ha, hs⟩ := h
    obtain rfl : st = sr := by simpa [hst] using hsr
    obtain ⟨h0, hent, rfl, hpay, debt, hd, rfl⟩ := verifyFarmHarvest_eq_some hv
    have hq' : q = ⟨e.farmId, a, e.shares, e.ownerCommit, e.oldNonce⟩ := by rw [hq, ha]
    have he := hs entry (hq' ▸ hstamp)
    rw [he] at hpay
    have : e.rewardAmount.val = 0 := by simpa [farmRpsPrecision] using hpay
    funext f
    simp [this]

/-- Heights never fall along a run. -/
theorem FarmRun.height_le {G : BatchCrypto} (hK : G.toKeccak.Ideal) {A : ScanReflection → FarmOp → Prop} {s₀ s : ScanReflection}
    (hrun : FarmRun G A s₀ s paid) : s₀.height.val ≤ s.height.val := by
  induction hrun with
  | start => exact le_rfl
  | @step s t _ op _ _ hop ih =>
    refine ih.trans ?_
    have hfarms : ∀ F : Farms, t.farms = F → F.height = s.height → s.height.val ≤ t.height.val := by
      rintro F rfl h
      exact (congrArg Fin.val h).ge
    have hm := op.moves hK hop
    generalize op.pays G s = pay at hm
    cases hm with
    | idle hf _ _ => exact hfarms _ hf rfl
    | advance hle hf _ _ => exact hle.trans (congrArg Farms.height hf).ge
    | fund _ _ hf _ _ => exact hfarms _ hf rfl
    | register _ _ _ _ _ hf _ _ => exact hfarms _ hf rfl
    | bond _ _ _ _ hf _ _ => exact hfarms _ hf rfl
    | harvest _ _ _ _ _ _ hf _ _ => exact hfarms _ hf rfl
    | unbond _ _ _ _ hf _ _ => exact hfarms _ hf rfl
    | refund _ _ _ _ hf _ _ => exact hfarms _ hf rfl

/-- Within one block nothing unsettles a position. -/
theorem FarmRun.keeps_settled {G : BatchCrypto} (hK : G.toKeccak.Ideal) {A : ScanReflection → FarmOp → Prop}
    {s₀ s : ScanReflection} (hrun : FarmRun G A s₀ s paid) (hh : s.height = s₀.height)
    (h : Settled G.toKeccak s₀.farms r) : Settled G.toKeccak s.farms r := by
  induction hrun with
  | start => exact h
  | @step s t p op hrun hadm hop ih =>
    have h1 := hrun.height_le hK
    have h2 := (FarmRun.step op .start hadm hop).height_le hK
    have hs : s.height = s₀.height := Fin.ext (by rw [hh] at h2; omega)
    exact (op.moves hK hop).keeps_settled hK (hh.trans hs.symm) (ih hs)

/-! ## Rewards are accounted for -/

/-- A harvest that pays does not panic. -/
theorem scanLpHarvest_of_pays {G : BatchCrypto} {tx : Tx} {w : TxWitness} {e : LpHarvestEnvelope} {s : ScanReflection}
    (h : harvestPays G tx w e s = true) : ∃ t, scanLpHarvest G tx w e s = .ok () t := by
  unfold harvestPays at h
  split at h
  swap
  · cases h
  rename_i a u hauth
  split at h
  swap
  · cases h
  rename_i b v hpay
  refine ⟨v, ?_⟩
  simp only [scanLpHarvest, bind_eq_ok, get_eq_ok, succeeds, attempt_eq_ok]
  refine ⟨s, s, ⟨rfl, rfl⟩, true, u, ⟨.ok a, u, .inr ⟨a, rfl, hauth⟩, rfl⟩, ?_⟩
  simp only [if_true, bind_eq_ok, attempt_eq_ok]
  exact ⟨true, v, ⟨.ok b, v, .inr ⟨b, rfl, hpay⟩, rfl⟩, rfl⟩

/-- The stamp of a position, zero if it has none. -/
def stampOf (K : Keccak) (s : ScanReflection) (r : Receipt) : Nat := ((s.farmEntries.get (r.leaf K)).map (·.val)).getD 0

/-- The most a position can be paid at the height of the state. -/
def claimable (K : Keccak) (s : ScanReflection) (st : FarmRewardState) (r : Receipt) : Nat :=
  r.shares.val * ((st.accrue s.height).rps.val - stampOf K s r) / farmRpsPrecision

theorem Booked.stampOf_eq {s : ScanReflection} (hb : Booked K s.farms p f st L) (hr : r ∈ L.live) :
    stampOf K s r = L.entry r := by
  obtain ⟨e, he⟩ := Option.ne_none_iff_exists'.1 ((hb.mem r).1 hr).2
  have he' : s.farmEntries.get (r.leaf K) = some e := he
  rw [hb.entry r hr e he]
  simp [stampOf, he']

theorem Booked.claimable_le {s : ScanReflection} (hb : Booked K s.farms p f st L) :
    p + ∑ r ∈ L.live, claimable K s st r ≤ st.rate.val * st.elapsed s.height := by
  obtain ⟨n, hn⟩ : ∃ n, st.raised s.height = n := ⟨_, rfl⟩
  have hb' := hb.accrue (h := s.height) le_rfl hn
  have hsum : ∑ r ∈ L.live, claimable K s st r = ∑ r ∈ (L.raise n).live, (L.raise n).due r / farmRpsPrecision := by
    refine Finset.sum_congr rfl fun r hr => ?_
    rw [claimable, RewardLedger.due, hb'.shares, hb'.index, RewardLedger.raise_entry, hb.stampOf_eq hr]
  have hlast : (st.accrue s.height).elapsed (st.accrue s.height).lastHeight = st.elapsed s.height := by
    have hl : (st.accrue s.height).lastHeight = s.height := by
      have := hb.last
      apply Fin.ext
      rw [accrue_lastHeight]
      exact max_eq_right this
    simp [elapsed, hl]
  have hbudget := hb'.budget
  rw [accrue_rate, hlast] at hbudget
  have hP : 0 < farmRpsPrecision := by decide
  calc p + ∑ r ∈ L.live, claimable K s st r
      ≤ p + (L.raise n).owed / farmRpsPrecision := by
        rw [hsum]
        exact Nat.add_le_add_left (RewardLedger.sum_due_div_le _) _
    _ = (p * farmRpsPrecision + (L.raise n).owed) / farmRpsPrecision := by
        rw [Nat.add_comm (p * farmRpsPrecision), Nat.add_mul_div_right _ _ hP, Nat.add_comm]
    _ ≤ st.rate.val * st.elapsed s.height * farmRpsPrecision / farmRpsPrecision := Nat.div_le_div_right hbudget
    _ = st.rate.val * st.elapsed s.height := Nat.mul_div_cancel _ hP

/-- Along every run from a state without farms: the two sums of a farm are the sums over its live stamps; what it has
paid and what its positions can still claim is within the elapsed part of its window; no subtraction of a harvest or an
unbond falls below zero; and after a paid harvest the same position is paid nothing more in that block, whatever
happens in between. -/
theorem farm_rewards_accounted {G : BatchCrypto} (hK : G.toKeccak.Ideal) {s₀ s : ScanReflection} (h₀ : NoFarms s₀)
    (hrun : FarmRun G (fun _ _ => True) s₀ s paid) :
    (∀ x, s.farmEntries.get x ≠ none → ∃ r : Receipt, r.leaf G.toKeccak = x ∧ s.farmRewards.get r.farm ≠ none) ∧
    (∀ f st, s.farmRewards.get f = some st → ∃ live : Finset Receipt,
      (∀ r, r ∈ live ↔ r.farm = f ∧ s.farmEntries.get (r.leaf G.toKeccak) ≠ none) ∧
      st.totalShares.val = ∑ r ∈ live, r.shares.val ∧
      st.totalRewardDebt.val = ∑ r ∈ live, r.shares.val * stampOf G.toKeccak s r ∧
      paid f + ∑ r ∈ live, claimable G.toKeccak s st r ≤ st.rate.val * st.elapsed s.height ∧
      ∀ r ∈ live, r.shares.val ≤ st.totalShares.val ∧
        r.shares.val * stampOf G.toKeccak s r ≤ st.totalRewardDebt.val ∧
        ∀ h, stampOf G.toKeccak s r ≤ (st.accrue h).rps.val) ∧
    ∀ tx w e t u paid' tx' w' e', (FarmOp.harvest tx w e).pays G s e.farmId ≠ 0 → scanLpHarvest G tx w e s = .ok () t →
      FarmRun G (fun _ _ => True) t u paid' → u.height = s.height →
      e'.farmId = e.farmId → e'.shares = e.shares → e'.ownerCommit = e.ownerCommit → e'.oldNonce = e.oldNonce →
      (FarmOp.harvest tx' w' e').pays G u = 0 := by
  have hB := hrun.books hK h₀
  refine ⟨hB.stamps, fun f st hst => ?_, ?_⟩
  · obtain ⟨L, hb⟩ := hB.books f st hst
    refine ⟨L.live, hb.mem, ?_, ?_, hb.claimable_le, fun r hr => ⟨?_, ?_, fun h => ?_⟩⟩
    · rw [← hb.total]
      exact Finset.sum_congr rfl fun r _ => hb.shares r
    · rw [← hb.debt]
      exact Finset.sum_congr rfl fun r hr => by rw [hb.shares, hb.stampOf_eq hr]
    · rw [← hb.total, ← hb.shares]
      exact RewardLedger.shares_le_total hr
    · rw [← hb.debt, ← hb.shares, hb.stampOf_eq hr]
      exact RewardLedger.le_debt hr
    · rw [hb.stampOf_eq hr, hb.rps_accrue h, ← hb.index]
      exact (L.entry_le r hr).trans (Nat.le_add_right _ _)
  · intro tx w e t u paid' tx' w' e' hpay hs hrun' hh hfarm hshares howner hnonce
    have hop : (FarmOp.harvest tx w e).run G s = .ok () t := hs
    have hm := FarmOp.moves hK hop
    obtain ⟨st, -, hset⟩ := hm.settles hpay
    have ht : t.height = s.height := by
      have h1 := hrun'.height_le hK
      have h2 := (FarmRun.step (A := fun _ _ => True) (.harvest tx w e) .start trivial hop).height_le hK
      exact Fin.ext (by rw [hh] at h1; omega)
    have hu := hrun'.keeps_settled hK (hh.trans ht.symm) hset
    rw [← hfarm, ← hshares, ← howner, ← hnonce] at hu
    by_cases hp : harvestPays G tx' w' e' u = true
    · obtain ⟨v, hv⟩ := scanLpHarvest_of_pays hp
      exact ((FarmOp.harvest tx' w' e').moves hK hv).pays_nothing hu
    · funext f
      simp [FarmOp.pays, hp]

/-- The books of the long farm with one share bonded at genesis, at the end of its window. -/
theorem farm_rewards_accounted_long_farm : ∃ s paid, NoFarms (ScanReflection.genesis codeKeccak) ∧
    FarmRun (clearCrypto codeKeccak) (fun _ _ => True) (ScanReflection.genesis codeKeccak) s paid ∧
    ∃ st, s.farmRewards.get (longFarmId codeKeccak) = some st ∧ st.totalShares.val = 1 ∧ ∃ live : Finset Receipt,
      st.totalShares.val = ∑ r ∈ live, r.shares.val ∧
      paid (longFarmId codeKeccak) + ∑ r ∈ live, claimable codeKeccak s st r ≤ st.rate.val * st.elapsed s.height := by
  obtain ⟨w, root, -, hbond⟩ := exists_bonded (K := codeKeccak) (spendWitness [] [] []) (n := 1) (by decide)
  have h₀ : NoFarms (ScanReflection.genesis codeKeccak) := ⟨rfl, rfl⟩
  have hrun := ((FarmRun.start (G := clearCrypto codeKeccak) (A := fun _ _ => True)).step _ trivial
    (launch_ok codeKeccak w)).step _ trivial hbond
  have hrun := hrun.step (.advance ⟨2 ^ 31, by decide⟩) trivial (t := { bonded codeKeccak 1 root with height := ⟨2 ^ 31, by decide⟩ }) rfl
  obtain ⟨-, hbooks, -⟩ := farm_rewards_accounted codeKeccak_ideal h₀ hrun
  have hst : ({ bonded codeKeccak 1 root with height := ⟨2 ^ 31, by decide⟩ } : ScanReflection).farmRewards.get (longFarmId codeKeccak) =
      some { longFarmRewards codeKeccak with totalShares := 1 } := by simp [bonded]
  obtain ⟨live, -, ht, -, hle, -⟩ := hbooks _ _ hst
  exact ⟨_, _, h₀, hrun, _, hst, rfl, live, ht, hle⟩

end Tacit
