import Tacit.Controller.Farm
import Tacit.Lib.RewardIndex
/-!
# The treasury of an escrow farm covers what it promised

A reward farm is a `RewardLedger` of its receipts: the stamps are the entries, `rps` the index. What the treasury must
cover is what the ledger owes, in whole units, and the rest of the schedule (`Inv.covers`): accrual moves at most as
much from the second to the first as it rounds down, a harvest takes from both sides, and `recover` leaves exactly the
first. The widths of the factors follow from the clock: the index grows by at most 2¹²⁸ a second.
-/
namespace Tacit

open Prog RewardLedger

namespace FarmController

variable {K : Keccak} {cfg : Config} {env : Env} {s t : Storage} {L : RewardLedger Receipt} {now : Nat}
  {r : Receipt}

/-! ## Checked steps -/

section

variable {A : Prop} {E : FarmError → Storage → Prop} {Q : Nat → Storage → Prop} {a b : Nat}

theorem wp_mul (h : a * b < 2 ^ 256) : wp A (mul a b) s E Q ↔ Q (a * b) s := wp_uint256_of_lt h

theorem wp_sub (h : b ≤ a) : wp A (sub a b) s E Q ↔ Q (a - b) s := wp_uintSub h

theorem wp_add : wp A (add a b) s E Q ↔ (2 ^ 256 ≤ a + b → E (.panic .add) s) ∧ (a + b < 2 ^ 256 → Q (a + b) s) :=
  wp_uint256

end

/-- An error that is no overflow of a product and no underflow. -/
def Fair (e : FarmError) : Prop := e ≠ .panic .mul ∧ e ≠ .panic .sub

/-! ## Accrual -/

/-- The seconds of the period that an accrual at `now` adds. -/
def Storage.elapsed (s : Storage) (now : Nat) : Nat := min now s.periodFinish - s.lastUpdate

/-- What an accrual at `now` adds to the index; nothing without stakers. -/
def Storage.raised (s : Storage) (now : Nat) : Nat := precision * (s.rate * s.elapsed now) / s.totalShares

/-- The index grows by `n`, accrued until `last`. -/
def Storage.credit (s : Storage) (n last : Nat) : Storage := { s with rps := s.rps + n, lastUpdate := last }

def Storage.accrued (s : Storage) (now : Nat) : Storage :=
  s.credit (s.raised now) (max s.lastUpdate (min now s.periodFinish))

section

variable (s : Storage) (now n last : Nat)

-- The amount is a variable here: with the emission in its place, comparing two states unfolds the product.
@[simp] theorem credit_rate : (s.credit n last).rate = s.rate := rfl

@[simp] theorem credit_periodFinish : (s.credit n last).periodFinish = s.periodFinish := rfl

@[simp] theorem credit_totalShares : (s.credit n last).totalShares = s.totalShares := rfl

@[simp] theorem credit_totalRewardDebt : (s.credit n last).totalRewardDebt = s.totalRewardDebt := rfl

@[simp] theorem credit_entryRps : (s.credit n last).entryRps = s.entryRps := rfl

@[simp] theorem credit_entryStamped : (s.credit n last).entryStamped = s.entryStamped := rfl

@[simp] theorem credit_treasury : (s.credit n last).treasury = s.treasury := rfl

@[simp] theorem credit_rps : (s.credit n last).rps = s.rps + n := rfl

@[simp] theorem credit_lastUpdate : (s.credit n last).lastUpdate = last := rfl

theorem credit_self : s.credit 0 s.lastUpdate = s := rfl

end

/-- A second accrual at the same time adds nothing. -/
theorem raised_accrued : (s.accrued now).raised now = 0 := by
  have helapsed : (s.accrued now).elapsed now = 0 := by
    rw [Storage.elapsed, Storage.accrued, credit_periodFinish, credit_lastUpdate]
    omega
  rw [Storage.raised, helapsed, Nat.mul_zero, Nat.mul_zero, Nat.zero_div]

/-- The most the index grows in a second. -/
def maxStep : Nat := precision * 2 ^ 64

/-- What accrual needs, at a time that a block header can have. -/
structure Wide (now : Nat) (s : Storage) : Prop where
  time_le : s.lastUpdate ≤ now
  clock : now < 2 ^ 64
  rate_lt : s.rate < 2 ^ 64
  rps_le : s.rps ≤ maxStep * s.lastUpdate

/-- The factors of the farm's products, at a time below 2⁴⁰. -/
structure Narrow (now : Nat) (s : Storage) : Prop where
  time_le : s.lastUpdate ≤ now
  now_lt : now < 2 ^ 40
  rate_lt : s.rate < 2 ^ 64
  shares_lt : s.totalShares < 2 ^ 64
  rps_le : s.rps ≤ maxStep * s.lastUpdate
  treasury_lt : s.treasury < 2 ^ 256

theorem Narrow.wide (h : Narrow now s) : Wide now s := ⟨h.time_le, h.now_lt.trans (by decide), h.rate_lt, h.rps_le⟩

theorem raised_le (hr : s.rate < 2 ^ 64) : s.raised now ≤ maxStep * s.elapsed now :=
  calc s.raised now ≤ precision * (s.rate * s.elapsed now) := Nat.div_le_self _ _
    _ ≤ precision * (2 ^ 64 * s.elapsed now) := Nat.mul_le_mul_left _ (Nat.mul_le_mul_right _ hr.le)
    _ = maxStep * s.elapsed now := (Nat.mul_assoc _ _ _).symm

theorem lastUpdate_add_elapsed : s.lastUpdate + s.elapsed now = max s.lastUpdate (min now s.periodFinish) := by
  rw [Storage.elapsed]
  omega

/-- The index stays below what the clock allows. -/
theorem rps_credit_le {n e : Nat} (h : s.rps ≤ maxStep * s.lastUpdate) (hn : n ≤ maxStep * e) :
    s.rps + n ≤ maxStep * (s.lastUpdate + e) := by
  rw [Nat.mul_add]
  exact Nat.add_le_add h hn

theorem Wide.accrued (h : Wide now s) : Wide now (s.accrued now) := by
  have hraised : s.raised now ≤ maxStep * s.elapsed now := raised_le h.rate_lt
  have hrps := rps_credit_le h.rps_le hraised
  rw [lastUpdate_add_elapsed] at hrps
  have hlast : max s.lastUpdate (min now s.periodFinish) ≤ now := by
    have := h.time_le
    omega
  rw [Storage.accrued]
  generalize s.raised now = n at hrps
  generalize max s.lastUpdate (min now s.periodFinish) = last at hrps hlast
  exact ⟨hlast, h.clock, h.rate_lt, hrps⟩

theorem Wide.rps_lt (h : Wide now s) : s.rps < 2 ^ 192 :=
  calc s.rps ≤ maxStep * s.lastUpdate := h.rps_le
    _ < maxStep * 2 ^ 64 := Nat.mul_lt_mul_of_pos_left (h.time_le.trans_lt h.clock) (by decide)
    _ = 2 ^ 192 := by decide

theorem Narrow.accrued (h : Narrow now s) : Narrow now (s.accrued now) := by
  obtain ⟨hlast, -, hrate, hrps⟩ := h.wide.accrued
  exact ⟨hlast, h.now_lt, hrate, h.shares_lt, hrps, h.treasury_lt⟩

theorem Narrow.rps_lt (h : Narrow now s) : s.rps < 2 ^ 168 :=
  calc s.rps ≤ maxStep * s.lastUpdate := h.rps_le
    _ < maxStep * 2 ^ 40 := Nat.mul_lt_mul_of_pos_left (h.time_le.trans_lt h.now_lt) (by decide)
    _ = 2 ^ 168 := by decide

/-- A product of shares and an index fits. -/
theorem mul_lt_of_shares {n i : Nat} (hn : n < 2 ^ 64) (hi : i < 2 ^ 168) : n * i < 2 ^ 256 :=
  calc n * i ≤ 2 ^ 64 * 2 ^ 168 := Nat.mul_le_mul hn.le hi.le
    _ < 2 ^ 256 := by decide

theorem Wide.wp_accrue {A : Prop} {E : FarmError → Storage → Prop} {Q : Unit → Storage → Prop} (h : Wide now s) :
    wp A (accrue now) s E Q ↔ Q () (s.accrued now) := by
  have happ : (if now < s.periodFinish then now else s.periodFinish) = min now s.periodFinish := by
    by_cases hlt : now < s.periodFinish
    · rw [if_pos hlt]
      omega
    · rw [if_neg hlt]
      omega
  simp only [accrue, wp_bind, wp_get, happ]
  by_cases hle : min now s.periodFinish ≤ s.lastUpdate
  · have he : s.elapsed now = 0 := Nat.sub_eq_zero_of_le hle
    have hr : s.raised now = 0 := by rw [Storage.raised, he, Nat.mul_zero, Nat.mul_zero, Nat.zero_div]
    rw [if_pos hle, Storage.accrued, hr, max_eq_left hle, credit_self, wp_pure]
  · rw [if_neg hle, Storage.accrued, max_eq_right (by omega : s.lastUpdate ≤ min now s.periodFinish)]
    by_cases h0 : s.totalShares = 0
    · have hr : s.raised now = 0 := by rw [Storage.raised, h0, Nat.div_zero]
      rw [if_neg (by simp [h0]), wp_modify, hr]
      rfl
    · have hel : s.elapsed now < 2 ^ 64 := by
        have := h.clock
        unfold Storage.elapsed
        omega
      have h₁ : s.rate * s.elapsed now < 2 ^ 128 :=
        calc s.rate * s.elapsed now ≤ 2 ^ 64 * s.elapsed now := Nat.mul_le_mul_right _ h.rate_lt.le
          _ < 2 ^ 64 * 2 ^ 64 := Nat.mul_lt_mul_of_pos_left hel (by decide)
          _ = 2 ^ 128 := by decide
      have h₂ : s.rate * s.elapsed now * precision < 2 ^ 256 :=
        calc s.rate * s.elapsed now * precision ≤ 2 ^ 128 * precision := Nat.mul_le_mul_right _ h₁.le
          _ < 2 ^ 256 := by decide
      have h₃ := h.accrued.rps_lt
      rw [Storage.accrued, credit_rps] at h₃
      have h₄ : s.rps + s.raised now < 2 ^ 256 := h₃.trans (by decide)
      have hdt : min now s.periodFinish - s.lastUpdate = s.elapsed now := rfl
      have hraised : s.rate * s.elapsed now * precision / s.totalShares = s.raised now := by
        rw [Storage.raised, Nat.mul_comm precision]
      rw [if_pos h0, hdt, emit, wp_bind, wp_bind, wp_mul (h₁.trans (by decide)), wp_bind, wp_mul h₂, wp_bind, wp_add, hraised,
        wp_modify]
      generalize s.raised now = n at h₄
      exact ⟨fun hq => hq.2 h₄, fun hq => ⟨fun hle => absurd h₄ (Nat.not_lt.2 hle), fun _ => hq⟩⟩

theorem wp_accrue {A : Prop} {E : FarmError → Storage → Prop} {Q : Unit → Storage → Prop} (h : Narrow now s) :
    wp A (accrue now) s E Q ↔ Q () (s.accrued now) := h.wide.wp_accrue

/-! ## The invariant -/

/-- `L` has the receipts behind the live stamps of a reward farm. -/
structure Tied (K : Keccak) (s : Storage) (L : RewardLedger Receipt) : Prop where
  shares : ∀ r, L.shares r = r.shares.val
  stamped : ∀ w, s.entryStamped w = true ↔ ∃ r ∈ L.live, r.leaf K = w
  entry : ∀ r ∈ L.live, s.entryRps (r.leaf K) = L.entry r
  index : L.index = s.rps
  total : L.total = s.totalShares
  debt : L.debt = s.totalRewardDebt

/-- The books of a reward farm at `now`. -/
structure Books (K : Keccak) (now : Nat) (s : Storage) (L : RewardLedger Receipt) : Prop extends Tied K s L where
  narrow : Narrow now s

structure Inv (K : Keccak) (now : Nat) (s : Storage) (L : RewardLedger Receipt) : Prop extends Books K now s L where
  covers : L.owed / precision + s.rate * (s.periodFinish - s.lastUpdate) ≤ s.treasury

theorem Inv.construct {lock : Nat} (h : now < 2 ^ 40) :
    Inv K now (construct lock now) (RewardLedger.empty (fun r => r.shares.val) 0) where
  narrow := by
    refine ⟨Nat.le_refl _, h, ?_, ?_, Nat.zero_le _, ?_⟩
    all_goals exact Nat.two_pow_pos _
  shares r := rfl
  stamped w := by simp [FarmController.construct, RewardLedger.empty]
  entry r hr := by simp [RewardLedger.empty] at hr
  index := rfl
  total := empty_total _ _
  debt := empty_debt _ _
  covers := by simp [FarmController.construct]

theorem Inv.later {now' : Nat} (h : Inv K now s L) (hle : now ≤ now') (hlt : now' < 2 ^ 40) : Inv K now' s L :=
  { h with narrow := { h.narrow with time_le := h.narrow.time_le.trans hle, now_lt := hlt } }

theorem Tied.mem_of_stamped (hK : K.Ideal) (h : Tied K s L) {r : Receipt} (hr : s.entryStamped (r.leaf K) = true) :
    r ∈ L.live := by
  obtain ⟨r', hr', hleaf⟩ := (h.stamped _).1 hr
  rwa [← Receipt.leaf_injective hK hleaf]

/-- The schedule gives up what accrual hands to the stakers. -/
theorem emission_add_rest {r pf lu last e : Nat} (he : e = min now pf - lu) (hl : last = max lu (min now pf)) :
    r * e + r * (pf - last) = r * (pf - lu) := by
  rw [← Nat.mul_add]
  congr 1
  omega

theorem Tied.accrued (h : Tied K s L) : Tied K (s.accrued now) (L.raise (s.raised now)) where
  shares := h.shares
  stamped := h.stamped
  entry := h.entry
  index := by
    rw [raise_index, Storage.accrued, credit_rps, h.index]
  total := by
    rw [raise_total, Storage.accrued, credit_totalShares, h.total]
  debt := by
    rw [raise_debt, Storage.accrued, credit_totalRewardDebt, h.debt]

theorem Books.accrued (h : Books K now s L) : Books K now (s.accrued now) (L.raise (s.raised now)) :=
  ⟨h.toTied.accrued, h.narrow.accrued⟩

theorem Inv.accrued (h : Inv K now s L) : Inv K now (s.accrued now) (L.raise (s.raised now)) where
  toBooks := h.toBooks.accrued
  covers := by
    have howed := L.raise_owed_div_le (n := s.rate * s.elapsed now) (by decide : 0 < precision)
    have helapsed : s.elapsed now = min now s.periodFinish - s.lastUpdate := rfl
    have hrest := emission_add_rest (r := s.rate) helapsed rfl
    have hcov := h.covers
    rw [h.total] at howed
    rw [Storage.accrued, credit_rate, credit_periodFinish, credit_lastUpdate, credit_treasury, Storage.raised]
    omega

/-- The view never underflows, and says what the receipts are owed. -/
theorem Books.outstanding (h : Books K now s L) {A : Prop} {E : FarmError → Storage → Prop} {Q : Nat → Storage → Prop} :
    wp A outstandingReward s E Q ↔ Q (L.owed / precision) s := by
  have hsum := L.owed_add_debt
  rw [h.index, h.total, h.debt, Nat.mul_comm] at hsum
  have hfit : s.rps * s.totalShares < 2 ^ 256 := by
    rw [Nat.mul_comm]
    exact mul_lt_of_shares h.narrow.shares_lt h.narrow.rps_lt
  rw [outstandingReward, wp_bind, wp_get, wp_bind, wp_mul hfit, wp_bind, wp_sub (by omega), wp_pure, ← hsum,
    Nat.add_sub_cancel]

/-! ## Governance -/

/-- The schedule of the new rate is what is left of the old one and the reward, rounded down. -/
theorem nextRate_fits (h : Inv K now s L) {sender : Address} {reward duration : Nat} (hr : reward < 2 ^ 256) :
    wp False (nextRate ⟨sender, now⟩ reward duration) s (fun e _ => Fair e)
      (fun rate t => t = s ∧ rate * duration < 2 ^ 256) := by
  have hleft : (s.periodFinish - now) * s.rate < 2 ^ 256 :=
    calc (s.periodFinish - now) * s.rate ≤ (s.periodFinish - s.lastUpdate) * s.rate :=
          Nat.mul_le_mul_right _ (Nat.sub_le_sub_left h.narrow.time_le _)
      _ = s.rate * (s.periodFinish - s.lastUpdate) := Nat.mul_comm _ _
      _ ≤ s.treasury := (Nat.le_add_left _ _).trans h.covers
      _ < 2 ^ 256 := h.narrow.treasury_lt
  rw [nextRate, wp_bind, wp_get]
  by_cases hpf : s.periodFinish ≤ now
  · rw [if_pos hpf, wp_pure]
    exact ⟨rfl, (Nat.div_mul_le_self _ _).trans_lt hr⟩
  · rw [if_neg hpf, wp_bind, wp_sub (Nat.le_of_not_le hpf), wp_bind, wp_mul hleft, wp_bind, wp_add]
    refine ⟨fun _ => by simp [Fair], fun hsum => ?_⟩
    exact ⟨rfl, (Nat.div_mul_le_self _ _).trans_lt hsum⟩

theorem checkFunded_spec (h : Inv K now s L) {rate duration : Nat} (hfit : rate * duration < 2 ^ 256) :
    wp False (checkFunded rate duration) s (fun e _ => Fair e)
      (fun _ t => t = s ∧ L.owed / precision + rate * duration ≤ s.treasury) := by
  rw [checkFunded, wp_bind, h.outstanding, wp_bind, wp_mul hfit, wp_bind, wp_add]
  refine ⟨fun _ => by simp [Fair], fun _ => ?_⟩
  rw [wp_bind, wp_get, wp_check]
  exact ⟨fun _ => by simp [Fair], fun hle => ⟨rfl, by omega⟩⟩

/-- A new schedule, funded on top of what is owed. -/
theorem Inv.schedule (h : Inv K now s L) {rate duration : Nat} (hrate : rate < 2 ^ 64)
    (hcov : L.owed / precision + rate * duration ≤ s.treasury) (hlast : s.lastUpdate ≤ now) :
    Inv K now { s with rate := rate, periodFinish := now + duration, lastUpdate := now } L :=
  { h with
    narrow := { h.narrow with
      time_le := Nat.le_refl _
      rate_lt := hrate
      rps_le := h.narrow.rps_le.trans (Nat.mul_le_mul_left _ hlast) }
    covers := by
      show L.owed / precision + rate * (now + duration - now) ≤ s.treasury
      rwa [Nat.add_sub_cancel_left] }

theorem notifyRewardAmount_spec (hE : cfg.escrowMode = true) (h : Inv K now s L) {sender : Address} {reward duration : Nat}
    (hr : reward < 2 ^ 256) : wp False (notifyRewardAmount cfg ⟨sender, now⟩ reward duration) s (fun e _ => Fair e)
      (fun _ t => Inv K now t (L.raise (s.raised now))) := by
  have hacc := h.accrued
  generalize L.raise (s.raised now) = L' at hacc
  rw [notifyRewardAmount, wp_bind, wp_check]
  refine ⟨fun _ => by simp [Fair], fun _ => ?_⟩
  rw [wp_bind, wp_check]
  refine ⟨fun _ => by simp [Fair], fun _ => ?_⟩
  rw [wp_bind, wp_accrue h.narrow, wp_bind]
  generalize s.accrued now = t at hacc
  refine wp_mono (nextRate_fits hacc hr) id (fun _ _ he => he) ?_
  rintro rate _ ⟨rfl, hfit⟩
  rw [wp_bind, wp_check]
  refine ⟨fun _ => by simp [Fair], fun _ => ?_⟩
  rw [wp_bind, wp_check]
  refine ⟨fun _ => by simp [Fair], fun hrate => ?_⟩
  rw [if_pos hE, wp_bind]
  refine wp_mono (checkFunded_spec hacc hfit) id (fun _ _ he => he) ?_
  rintro _ _ ⟨rfl, hcov⟩
  rw [wp_bind, wp_add]
  refine ⟨fun _ => by simp [Fair], fun _ => ?_⟩
  rw [wp_modify]
  exact hacc.schedule (by omega) hcov hacc.narrow.time_le

/-- The pool hands out what the reserve leaves. -/
theorem release_spec (h : Inv K now s L) (hend : s.periodFinish ≤ s.lastUpdate) {paid : Bool} :
    wp False (release paid) s (fun e _ => Fair e)
      (fun _ t => t = { s with treasury := L.owed / precision } ∧ Inv K now t L) := by
  have hcov := h.covers
  rw [Nat.sub_eq_zero_of_le hend, Nat.mul_zero, Nat.add_zero] at hcov
  rw [release, wp_bind, wp_check]
  refine ⟨fun _ => by simp [Fair], fun _ => ?_⟩
  rw [wp_bind, h.outstanding, wp_bind, wp_get, wp_bind, wp_modify, wp_pure]
  have hrest : s.treasury - (if L.owed / precision < s.treasury then s.treasury - L.owed / precision else 0) =
      L.owed / precision := by
    generalize L.owed / precision = o at hcov
    split <;> omega
  rw [hrest]
  refine ⟨rfl, { h with narrow := { h.narrow with treasury_lt := hcov.trans_lt h.narrow.treasury_lt }, covers := ?_ }⟩
  show L.owed / precision + s.rate * (s.periodFinish - s.lastUpdate) ≤ L.owed / precision
  rw [Nat.sub_eq_zero_of_le hend, Nat.mul_zero, Nat.add_zero]

/-- `recover` leaves what the receipts have earned at the end of the period. -/
theorem recover_spec (h : Inv K now s L) {sender recipient : Address} {paid : Bool} :
    wp False (recover cfg ⟨sender, now⟩ recipient paid) s (fun e _ => Fair e)
      (fun _ t => t = { s.accrued now with treasury := (L.raise (s.raised now)).owed / precision } ∧
        Inv K now t (L.raise (s.raised now))) := by
  have hacc := h.accrued
  have hlast : (s.accrued now).lastUpdate = max s.lastUpdate (min now s.periodFinish) := by
    rw [Storage.accrued, credit_lastUpdate]
  have hpf : (s.accrued now).periodFinish = s.periodFinish := by
    rw [Storage.accrued, credit_periodFinish]
  generalize L.raise (s.raised now) = L' at hacc
  rw [recover, wp_bind, wp_check]
  refine ⟨fun _ => by simp [Fair], fun _ => ?_⟩
  rw [wp_bind, wp_check]
  refine ⟨fun _ => by simp [Fair], fun _ => ?_⟩
  rw [wp_bind, wp_check]
  refine ⟨fun _ => by simp [Fair], fun _ => ?_⟩
  rw [wp_bind, wp_get, wp_bind, wp_add]
  refine ⟨fun _ => by simp [Fair], fun _ => ?_⟩
  rw [wp_bind, wp_check]
  refine ⟨fun _ => by simp [Fair], fun hgrace => ?_⟩
  rw [wp_bind, wp_accrue h.narrow]
  generalize s.accrued now = t at hacc hlast hpf
  refine release_spec hacc ?_
  rw [hlast, hpf]
  change ¬ now < s.periodFinish + recoverGrace at hgrace
  omega

/-! ## Harvests -/

/-- What the controller asks of a harvest. -/
structure Accepted (K : Keccak) (cfg : Config) (sender : Address) (L : RewardLedger Receipt) (r : Receipt)
    (rewardAsset : Word) (reward : Nat) : Prop where
  sender_eq : sender = cfg.pool
  receipts : cfg.receiptMode = true
  shares_ne : r.shares.val ≠ 0
  leaf_ne : r.leaf K ≠ 0
  asset_eq : rewardAsset = cfg.rewardAsset
  live : r ∈ L.live
  within : reward * precision ≤ L.due r

/-- The stamp moves to the index now, and the debt takes on the whole window. -/
def Storage.restamp (s : Storage) (w : Word) (window : Nat) : Storage :=
  { s with totalRewardDebt := s.totalRewardDebt + window, entryRps := Function.update s.entryRps w s.rps }

theorem claimed_lt {reward : U 64} : reward.val * precision < 2 ^ 256 :=
  calc reward.val * precision ≤ 2 ^ 64 * precision := Nat.mul_le_mul_right _ reward.isLt.le
    _ < 2 ^ 256 := by decide

theorem Tied.due_eq (h : Tied K s L) (hr : r ∈ L.live) :
    r.shares.val * (s.rps - s.entryRps (r.leaf K)) = L.due r := by
  rw [due, h.shares, h.index, h.entry r hr]

theorem Books.debt_add_due_lt (h : Books K now s L) (hr : r ∈ L.live) : s.totalRewardDebt + L.due r < 2 ^ 256 := by
  have hsum := L.owed_add_debt
  have hle := due_le_owed hr
  rw [h.total, h.index, h.debt] at hsum
  have hfit := mul_lt_of_shares h.narrow.shares_lt h.narrow.rps_lt
  omega

/-- What is due is within the treasury, and the rest of it still covers the others. -/
theorem Inv.pays (h : Inv K now s L) {reward : Nat} (hr : r ∈ L.live) (hle : reward * precision ≤ L.due r) :
    reward + ((L.settle r).owed / precision + s.rate * (s.periodFinish - s.lastUpdate)) ≤ s.treasury := by
  have hreward : reward ≤ L.due r / precision := (Nat.le_div_iff_mul_le (by decide)).2 hle
  have hdiv := due_div_add_settle_owed_div_le hr precision
  have hcov := h.covers
  omega

/-- The controller accepts what meets its conditions, whatever the treasury. -/
theorem claim_of_accepted (h : Books K now s L) {sender : Address} {asset : Word} {reward : U 64} (hpos : 0 < reward.val)
    (ha : Accepted K cfg sender (L.raise (s.raised now)) r asset reward.val) :
    wp False (claim K cfg ⟨sender, now⟩ r asset reward) s (fun _ _ => False)
      (fun _ t => t = (s.accrued now).restamp (r.leaf K) ((L.raise (s.raised now)).due r)) := by
  have hacc := h.accrued
  generalize L.raise (s.raised now) = L' at hacc ha
  have hstamped : (s.accrued now).entryStamped (r.leaf K) ≠ false := by
    rw [(hacc.stamped _).2 ⟨r, ha.live, rfl⟩]
    decide
  rw [claim, onCdpMint, wp_bind, wp_check]
  refine ⟨fun hs => hs ha.sender_eq, fun _ => ?_⟩
  rw [wp_bind, wp_accrue h.narrow, if_pos rfl, wp_bind, wp_check]
  generalize s.accrued now = t at hacc hstamped
  refine ⟨fun hm => by simp [ha.receipts] at hm, fun _ => ?_⟩
  rw [wp_bind, wp_check]
  refine ⟨ha.shares_ne, fun _ => ?_⟩
  rw [wp_bind, wp_check]
  refine ⟨ha.leaf_ne, fun _ => ?_⟩
  rw [if_neg (by omega), harvestReceipt, wp_bind, wp_get, wp_bind, wp_check]
  refine ⟨fun hne => hne ha.asset_eq, fun _ => ?_⟩
  rw [wp_bind, wp_check]
  refine ⟨hstamped, fun _ => ?_⟩
  have hentry : t.entryRps (r.leaf K) ≤ t.rps := by
    rw [hacc.entry r ha.live, ← hacc.index]
    exact L'.entry_le r ha.live
  have hfit : r.shares.val * (t.rps - t.entryRps (r.leaf K)) < 2 ^ 256 :=
    mul_lt_of_shares r.shares.isLt ((Nat.sub_le _ _).trans_lt hacc.narrow.rps_lt)
  rw [wp_bind, wp_sub hentry, wp_bind, wp_mul claimed_lt, wp_bind, wp_mul hfit, wp_bind, wp_check, hacc.due_eq ha.live]
  refine ⟨fun hlt => absurd ha.within (Nat.not_le.2 hlt), fun _ => ?_⟩
  rw [wp_bind, wp_mul (hacc.due_eq ha.live ▸ hfit), hacc.due_eq ha.live, wp_bind, wp_add]
  refine ⟨fun hle => absurd (hacc.debt_add_due_lt ha.live) (Nat.not_lt.2 hle), fun _ => ?_⟩
  rw [wp_modify]
  rfl

/-- The pool pays a harvest out of the treasury. -/
def Storage.debit (s : Storage) (n : Nat) : Storage := { s with treasury := s.treasury - n }

theorem raised_debit {n : Nat} : (s.debit n).raised now = s.raised now := rfl

theorem raised_restamp {w : Word} {n : Nat} : (s.restamp w n).raised now = s.raised now := rfl

theorem accrued_debit {n : Nat} : (s.debit n).accrued now = (s.accrued now).debit n := by
  rw [Storage.accrued, Storage.accrued, raised_debit]
  generalize s.raised now = m
  rfl

theorem Books.debit (h : Books K now s L) {n : Nat} : Books K now (s.debit n) L :=
  { h with narrow := { h.narrow with treasury_lt := (Nat.sub_le _ _).trans_lt h.narrow.treasury_lt } }

/-! ## Receipts -/

section

variable (hK : K.Ideal)

include hK

theorem leaf_ne {r r' : Receipt} (h : r' ≠ r) : r'.leaf K ≠ r.leaf K := fun he => h (Receipt.leaf_injective hK he)

theorem Tied.join (h : Tied K s L) (hr : s.entryStamped (r.leaf K) ≠ true) :
    Tied K { s with
      entryStamped := Function.update s.entryStamped (r.leaf K) true
      entryRps := Function.update s.entryRps (r.leaf K) s.rps
      totalShares := s.totalShares + r.shares.val
      totalRewardDebt := s.totalRewardDebt + r.shares.val * s.rps } (L.join r) := by
  have hmem : r ∉ L.live := fun hl => hr ((h.stamped _).2 ⟨r, hl, rfl⟩)
  refine ⟨h.shares, fun w => ?_, fun j hj => ?_, h.index, ?_, ?_⟩
  · simp only [RewardLedger.join, Finset.mem_insert, exists_eq_or_imp]
    rw [← h.stamped w]
    by_cases hw : r.leaf K = w
    · simp [hw]
    · rw [Function.update_of_ne (Ne.symm hw)]
      simp [hw]
  · by_cases hj' : j = r
    · subst hj'
      rw [join_entry_self, h.index]
      exact Function.update_self _ _ _
    · rw [join_entry_of_ne hj', ← h.entry j ((Finset.mem_insert.1 hj).resolve_left hj')]
      exact Function.update_of_ne (leaf_ne hK hj') _ _
  · rw [join_total hmem, h.total, h.shares]
  · rw [join_debt hmem, h.debt, h.shares, h.index]

theorem Tied.settle (h : Tied K s L) (hr : r ∈ L.live) :
    Tied K { s with
      totalRewardDebt := s.totalRewardDebt + L.due r
      entryRps := Function.update s.entryRps (r.leaf K) s.rps } (L.settle r) := by
  refine ⟨h.shares, h.stamped, fun j hj => ?_, h.index, h.total, ?_⟩
  · by_cases hj' : j = r
    · subst hj'
      rw [settle_entry_self, h.index]
      exact Function.update_self _ _ _
    · rw [settle_entry_of_ne hj', ← h.entry j hj]
      exact Function.update_of_ne (leaf_ne hK hj') _ _
  · rw [settle_debt hr, h.debt]

theorem Tied.leave (h : Tied K s L) (hr : r ∈ L.live) :
    Tied K { s with
      totalRewardDebt := s.totalRewardDebt - r.shares.val * s.entryRps (r.leaf K)
      entryRps := Function.update s.entryRps (r.leaf K) 0
      entryStamped := Function.update s.entryStamped (r.leaf K) false
      totalShares := s.totalShares - r.shares.val } (L.leave r) := by
  have htot := leave_total hr
  have hdebt := leave_debt hr
  rw [h.total, h.shares] at htot
  rw [h.debt, h.shares, ← h.entry r hr] at hdebt
  refine ⟨h.shares, fun w => ?_, fun j hj => ?_, h.index, ?_, ?_⟩
  · by_cases hw : w = r.leaf K
    · subst hw
      simp only [Function.update_self, Bool.false_eq_true, false_iff]
      rintro ⟨j, hj, hleaf⟩
      exact (Finset.mem_erase.1 hj).1 (Receipt.leaf_injective hK hleaf)
    · simp only [Function.update_of_ne hw, h.stamped w, RewardLedger.leave, Finset.mem_erase]
      constructor
      · rintro ⟨j, hj, rfl⟩
        exact ⟨j, ⟨fun hjr => hw (hjr ▸ rfl), hj⟩, rfl⟩
      · rintro ⟨j, ⟨_, hj⟩, rfl⟩
        exact ⟨j, hj, rfl⟩
  · obtain ⟨hne, hmem⟩ := Finset.mem_erase.1 hj
    show Function.update s.entryRps (r.leaf K) 0 (j.leaf K) = L.entry j
    rw [Function.update_of_ne (leaf_ne hK hne), h.entry j hmem]
  · show (L.leave r).total = s.totalShares - r.shares.val
    omega
  · show (L.leave r).debt = s.totalRewardDebt - r.shares.val * s.entryRps (r.leaf K)
    omega

theorem Books.join (h : Books K now s L) (hr : s.entryStamped (r.leaf K) ≠ true)
    (hlt : s.totalShares + r.shares.val < 2 ^ 64) :
    Books K now { s with
      entryStamped := Function.update s.entryStamped (r.leaf K) true
      entryRps := Function.update s.entryRps (r.leaf K) s.rps
      totalShares := s.totalShares + r.shares.val
      totalRewardDebt := s.totalRewardDebt + r.shares.val * s.rps } (L.join r) :=
  ⟨h.toTied.join hK hr, { h.narrow with shares_lt := hlt }⟩

theorem Books.settle (h : Books K now s L) (hr : r ∈ L.live) :
    Books K now { s with
      totalRewardDebt := s.totalRewardDebt + L.due r
      entryRps := Function.update s.entryRps (r.leaf K) s.rps } (L.settle r) :=
  ⟨h.toTied.settle hK hr, { h.narrow with }⟩

theorem Books.leave (h : Books K now s L) (hr : r ∈ L.live) :
    Books K now { s with
      totalRewardDebt := s.totalRewardDebt - r.shares.val * s.entryRps (r.leaf K)
      entryRps := Function.update s.entryRps (r.leaf K) 0
      entryStamped := Function.update s.entryStamped (r.leaf K) false
      totalShares := s.totalShares - r.shares.val } (L.leave r) := by
  refine ⟨h.toTied.leave hK hr, { h.narrow with shares_lt := ?_ }⟩
  exact (Nat.sub_le _ _).trans_lt h.narrow.shares_lt

theorem bond_spec (h : Inv K now s L) {sender : Address} :
    wp False ((Call.bond r).run K cfg ⟨sender, now⟩) s (fun e _ => Fair e)
      (fun _ t => t.totalShares < 2 ^ 64 → Inv K now t ((L.raise (s.raised now)).join r)) := by
  have hacc := h.accrued
  generalize L.raise (s.raised now) = L' at hacc
  rw [Call.run, onCdpMint, wp_bind, wp_check]
  refine ⟨fun _ => by simp [Fair], fun _ => ?_⟩
  rw [wp_bind, wp_accrue h.narrow, if_pos rfl, wp_bind, wp_check]
  generalize s.accrued now = t at hacc
  refine ⟨fun _ => by simp [Fair], fun _ => ?_⟩
  rw [wp_bind, wp_check]
  refine ⟨fun _ => by simp [Fair], fun _ => ?_⟩
  rw [wp_bind, wp_check]
  refine ⟨fun _ => by simp [Fair], fun _ => ?_⟩
  rw [if_pos rfl, bondReceipt, wp_bind, wp_get, wp_bind, wp_check]
  refine ⟨fun _ => by simp [Fair], fun _ => ?_⟩
  rw [wp_bind, wp_check]
  refine ⟨fun _ => by simp [Fair], fun hfresh => ?_⟩
  rw [wp_bind, wp_add]
  refine ⟨fun _ => by simp [Fair], fun _ => ?_⟩
  rw [wp_bind, wp_mul (mul_lt_of_shares r.shares.isLt hacc.narrow.rps_lt), wp_bind, wp_add]
  refine ⟨fun _ => by simp [Fair], fun _ => ?_⟩
  rw [wp_modify]
  intro hlt
  refine ⟨hacc.toBooks.join hK hfresh hlt, ?_⟩
  have hmem : r ∉ L'.live := fun hl => hfresh ((hacc.stamped _).2 ⟨r, hl, rfl⟩)
  rw [join_owed hmem]
  exact hacc.covers

theorem unbond_spec (hR : cfg.receiptMode = true) (h : Inv K now s L) {sender : Address} :
    wp False ((Call.unbond r).run K cfg ⟨sender, now⟩) s (fun e _ => Fair e)
      (fun _ t => Inv K now t ((L.raise (s.raised now)).leave r)) := by
  have hacc := h.accrued
  generalize L.raise (s.raised now) = L' at hacc
  rw [Call.run, onCdpClose, wp_bind, wp_check]
  refine ⟨fun _ => by simp [Fair], fun _ => ?_⟩
  rw [wp_bind, wp_check]
  refine ⟨fun _ => by simp [Fair], fun _ => ?_⟩
  rw [wp_bind, wp_get, wp_bind, wp_check]
  refine ⟨fun _ => by simp [Fair], fun _ => ?_⟩
  rw [wp_bind, wp_accrue h.narrow]
  generalize s.accrued now = t at hacc
  rw [wp_bind, stakeWeight, wp_bind, wp_check]
  refine ⟨fun _ => by simp [Fair], fun _ => ?_⟩
  rw [stakeWeight.go, wp_bind, wp_check]
  refine ⟨fun _ => by simp [Fair], fun _ => ?_⟩
  rw [wp_bind, wp_check]
  refine ⟨fun _ => by simp [Fair], fun _ => ?_⟩
  rw [wp_bind, wp_add]
  refine ⟨fun _ => by simp [Fair], fun _ => ?_⟩
  rw [stakeWeight.go, wp_pure, Nat.zero_add, wp_bind, retireStamp, wp_bind, wp_get, if_pos hR, wp_bind, wp_check]
  refine ⟨fun _ => by simp [Fair], fun hst => ?_⟩
  have hmem : r ∈ L'.live := hacc.mem_of_stamped hK (Bool.not_eq_false _ ▸ hst)
  have hentry : t.entryRps (r.leaf K) ≤ t.rps := by
    rw [hacc.entry r hmem, ← hacc.index]
    exact L'.entry_le r hmem
  have hdebt : r.shares.val * t.entryRps (r.leaf K) ≤ t.totalRewardDebt := by
    rw [hacc.entry r hmem, ← hacc.debt, ← hacc.shares]
    exact le_debt hmem
  rw [wp_bind, wp_mul (mul_lt_of_shares r.shares.isLt (hentry.trans_lt hacc.narrow.rps_lt)), wp_bind, wp_sub hdebt,
    wp_modify, wp_bind, wp_get, wp_bind, wp_check]
  refine ⟨fun _ => by simp [Fair], fun _ => ?_⟩
  rw [wp_modify]
  refine ⟨hacc.toBooks.leave hK hmem, ?_⟩
  have howed : (L'.leave r).owed ≤ L'.owed := by
    have := leave_owed hmem
    omega
  exact (Nat.add_le_add_right (Nat.div_le_div_right howed) _).trans hacc.covers

theorem harvestReceipt_spec (h : Books K now s L) {asset : Word} {reward : U 64} :
    wp False (harvestReceipt cfg asset r.shares.val reward.val (r.leaf K)) s (fun e _ => Fair e)
      (fun _ t => asset = cfg.rewardAsset ∧ r ∈ L.live ∧ reward.val * precision ≤ L.due r ∧
        t = s.restamp (r.leaf K) (L.due r)) := by
  rw [harvestReceipt, wp_bind, wp_get, wp_bind, wp_check]
  refine ⟨fun _ => by simp [Fair], fun hasset => ?_⟩
  rw [wp_bind, wp_check]
  refine ⟨fun _ => by simp [Fair], fun hst => ?_⟩
  have hmem : r ∈ L.live := h.mem_of_stamped hK (Bool.not_eq_false _ ▸ hst)
  have hentry : s.entryRps (r.leaf K) ≤ s.rps := by
    rw [h.entry r hmem, ← h.index]
    exact L.entry_le r hmem
  have hfit : r.shares.val * (s.rps - s.entryRps (r.leaf K)) < 2 ^ 256 :=
    mul_lt_of_shares r.shares.isLt ((Nat.sub_le _ _).trans_lt h.narrow.rps_lt)
  rw [wp_bind, wp_sub hentry, wp_bind, wp_mul claimed_lt, wp_bind, wp_mul hfit, wp_bind, wp_check]
  refine ⟨fun _ => by simp [Fair], fun hle => ?_⟩
  rw [wp_bind, wp_mul hfit, wp_bind, wp_add, h.due_eq hmem]
  rw [h.due_eq hmem] at hle
  refine ⟨fun _ => by simp [Fair], fun _ => ?_⟩
  rw [wp_modify]
  exact ⟨not_not.1 hasset, hmem, Nat.not_lt.1 hle, rfl⟩

theorem claim_spec (h : Books K now s L) {sender : Address} {asset : Word} {reward : U 64} (hpos : 0 < reward.val) :
    wp False (claim K cfg ⟨sender, now⟩ r asset reward) s (fun e _ => Fair e)
      (fun _ t => Accepted K cfg sender (L.raise (s.raised now)) r asset reward.val ∧
        t = (s.accrued now).restamp (r.leaf K) ((L.raise (s.raised now)).due r)) := by
  have hacc := h.accrued
  generalize L.raise (s.raised now) = L' at hacc
  rw [claim, onCdpMint, wp_bind, wp_check]
  refine ⟨fun _ => by simp [Fair], fun hsender => ?_⟩
  rw [wp_bind, wp_accrue h.narrow, if_pos rfl, wp_bind, wp_check]
  generalize s.accrued now = t at hacc
  refine ⟨fun _ => by simp [Fair], fun hmode => ?_⟩
  rw [wp_bind, wp_check]
  refine ⟨fun _ => by simp [Fair], fun hshares => ?_⟩
  rw [wp_bind, wp_check]
  refine ⟨fun _ => by simp [Fair], fun hleaf => ?_⟩
  rw [if_neg (by omega)]
  refine wp_mono (harvestReceipt_spec hK hacc) id (fun _ _ he => he) ?_
  rintro _ u ⟨hasset, hmem, hle, rfl⟩
  exact ⟨⟨not_not.1 hsender, Bool.not_eq_false _ ▸ hmode, hshares, hleaf, hasset, hmem, hle⟩, rfl⟩

theorem Inv.harvested (h : Inv K now s L) {reward : Nat} (hr : r ∈ L.live) (hle : reward * precision ≤ L.due r) :
    Inv K now ((s.debit reward).restamp (r.leaf K) (L.due r)) (L.settle r) := by
  refine ⟨h.toBooks.debit.settle hK hr, ?_⟩
  show (L.settle r).owed / precision + s.rate * (s.periodFinish - s.lastUpdate) ≤ s.treasury - reward
  have := h.pays hr hle
  omega

theorem harvest_spec (hE : cfg.escrowMode = true) (h : Inv K now s L) {sender : Address} {asset : Word} {reward : U 64}
    (hpos : 0 < reward.val) :
    wp False ((Call.harvest r asset reward hpos).run K cfg ⟨sender, now⟩) s (fun e _ => Fair e)
      (fun _ t => r ∈ L.live ∧
        t = ((s.accrued now).debit reward.val).restamp (r.leaf K) ((L.raise (s.raised now)).due r) ∧
        Inv K now t ((L.raise (s.raised now)).settle r)) := by
  have hne : cfg.rewardAsset ≠ cfg.debtAsset := by
    have := cfg.shape
    simpa [hE] using this
  rw [Call.run, wp_bind, debitTreasury, wp_bind, wp_get]
  by_cases hasset : asset = cfg.debtAsset
  · rw [if_neg (not_not.2 hasset), wp_pure]
    refine wp_mono (claim_spec hK h.toBooks hpos) id (fun _ _ he => he) ?_
    rintro _ _ ⟨ha, _⟩
    exact absurd (ha.asset_eq.symm.trans hasset) hne
  · rw [if_pos hasset, wp_bind, wp_check]
    refine ⟨fun _ => by simp [Fair], fun _ => ?_⟩
    rw [wp_modify]
    change wp False _ (s.debit reward.val) _ _
    have hdebit := h.toBooks.debit (n := reward.val)
    refine wp_mono (claim_spec hK hdebit hpos) id (fun _ _ he => he) ?_
    rintro _ _ ⟨ha, rfl⟩
    rw [raised_debit] at ha ⊢
    rw [accrued_debit]
    exact ⟨ha.live, rfl, h.accrued.harvested hK ha.live ha.within⟩

end

/-! ## Runs -/

theorem fund_spec (h : Inv K now s L) {out : Nat} :
    wp False ((Call.fund out).run K cfg env) s (fun e _ => Fair e) (fun _ t => Inv K now t L) := by
  rw [Call.run, wp_bind, wp_get, wp_bind, wp_add]
  refine ⟨fun _ => by simp [Fair], fun hlt => ?_⟩
  rw [wp_modify]
  exact { h with
    narrow := { h.narrow with treasury_lt := hlt }
    covers := h.covers.trans (Nat.le_add_right _ _) }

theorem setLockUntil_spec (h : Inv K now s L) {n : Nat} :
    wp False (setLockUntil cfg env n) s (fun e _ => Fair e) (fun _ t => Inv K now t L) := by
  rw [setLockUntil, wp_bind, wp_check]
  refine ⟨fun _ => by simp [Fair], fun _ => ?_⟩
  rw [wp_bind, wp_get, wp_bind, wp_check]
  refine ⟨fun _ => by simp [Fair], fun _ => ?_⟩
  rw [wp_modify]
  exact { h with narrow := { h.narrow with } }

/-- A reward farm has no bare positions. -/
theorem position_spec (hR : cfg.receiptMode = true) (h : Narrow now s) {sender : Address}
    {legs : List ConfidentialPool.CdpLeg} {debtValue : Nat} {leaf snapshot : Word} (hne : leaf ≠ receiptSentinel) :
    wp False (onCdpMint cfg ⟨sender, now⟩ legs debtValue leaf snapshot) s (fun e _ => Fair e) (fun _ _ => False) := by
  unfold onCdpMint
  rw [wp_bind, wp_check]
  refine ⟨fun _ => by simp [Fair], fun _ => ?_⟩
  rw [wp_bind, wp_accrue h, if_neg hne]
  by_cases h0 : leaf = 0
  · rw [if_pos h0, wp_throw]
    simp [Fair]
  · rw [if_neg h0, wp_bind, wp_check]
    exact ⟨fun _ => by simp [Fair], fun hne => absurd hR hne⟩

/-- Every call of a reward farm keeps the invariant, and fails for a reason of its own if it fails. -/
theorem Call.run_spec (hK : K.Ideal) (hE : cfg.escrowMode = true) (hR : cfg.receiptMode = true) (h : Inv K now s L)
    {sender : Address} (c : Call) : wp False (c.run K cfg ⟨sender, now⟩) s (fun e _ => Fair e)
      (fun _ t => t.totalShares < 2 ^ 64 → ∃ L', Inv K now t L') := by
  cases c with
  | fund out => exact wp_mono (fund_spec h) id (fun _ _ he => he) fun _ _ ht _ => ⟨_, ht⟩
  | notifyRewardAmount reward duration =>
    exact wp_mono (notifyRewardAmount_spec hE h reward.isLt) id (fun _ _ he => he) fun _ _ ht _ => ⟨_, ht⟩
  | recover recipient paid =>
    rw [Call.run, wp_bind]
    exact wp_mono (recover_spec h) id (fun _ _ he => he) fun _ _ ht _ => ⟨_, ht.2⟩
  | setLockUntil n => exact wp_mono (setLockUntil_spec h) id (fun _ _ he => he) fun _ _ ht _ => ⟨_, ht⟩
  | bond r => exact wp_mono (bond_spec hK h) id (fun _ _ he => he) fun _ _ ht hlt => ⟨_, ht hlt⟩
  | harvest r asset reward hpos =>
    exact wp_mono (harvest_spec hK hE h hpos) id (fun _ _ he => he) fun _ _ ht _ => ⟨_, ht.2.2⟩
  | unbond r => exact wp_mono (unbond_spec hK hR h) id (fun _ _ he => he) fun _ _ ht _ => ⟨_, ht⟩
  | position legs debtValue leaf snapshot hne =>
    exact wp_mono (position_spec hR h.narrow hne) id (fun _ _ he => he) fun _ _ hf => hf.elim

/-- The states of a farm at a time: deployed, then called at non-decreasing times below 2⁴⁰, with fewer than 2⁶⁴
shares bonded. -/
inductive Reach (K : Keccak) (cfg : Config) : Nat → Storage → Prop
  | deploy (lock : Nat) {now : Nat} : now < 2 ^ 40 → Reach K cfg now (construct lock now)
  | call (sender : Address) (c : Call) {now now' : Nat} {s t : Storage} : Reach K cfg now s → now ≤ now' →
    now' < 2 ^ 40 → c.run K cfg ⟨sender, now'⟩ s = .ok () t → t.totalShares < 2 ^ 64 → Reach K cfg now' t

theorem Reach.inv (hK : K.Ideal) (hE : cfg.escrowMode = true) (hR : cfg.receiptMode = true) (h : Reach K cfg now s) :
    ∃ L, Inv K now s L := by
  induction h with
  | deploy lock hlt => exact ⟨_, Inv.construct hlt⟩
  | call sender c _ hle hlt hrun hsh ih =>
    obtain ⟨L, hL⟩ := ih
    exact wp_of_ok (Call.run_spec hK hE hR (hL.later hle hlt) _) hrun hsh

/-- A harvest the controller accepts is paid. -/
theorem Inv.paid (hK : K.Ideal) (hE : cfg.escrowMode = true) (h : Inv K now s L) {sender : Address} {asset : Word}
    {reward : U 64} (hpos : 0 < reward.val) (hc : claim K cfg ⟨sender, now⟩ r asset reward s = .ok () t) :
    ∃ u, (Call.harvest r asset reward hpos).run K cfg ⟨sender, now⟩ s = .ok () u := by
  obtain ⟨ha, -⟩ := wp_of_ok (claim_spec hK h.toBooks hpos) hc
  have hle : reward.val ≤ s.treasury := by
    have := h.accrued.pays ha.live ha.within
    rw [Storage.accrued, credit_treasury] at this
    exact (Nat.le_add_right _ _).trans this
  have hne : asset ≠ cfg.debtAsset := by
    have := cfg.shape
    rw [ha.asset_eq]
    simpa [hE] using this
  have hrun : wp False ((Call.harvest r asset reward hpos).run K cfg ⟨sender, now⟩) s (fun _ _ => False) (fun _ _ => True) := by
    rw [Call.run, wp_bind, debitTreasury, wp_bind, wp_get, if_pos hne, wp_bind, wp_check]
    refine ⟨fun hbad => ?_, fun _ => ?_⟩
    · rcases hbad with hbad | hbad
      · exact hbad ha.asset_eq
      · omega
    · rw [wp_modify]
      change wp False _ (s.debit reward.val) _ _
      exact wp_mono (claim_of_accepted h.toBooks.debit hpos ha) id (fun _ _ he => he) fun _ _ _ => trivial
  obtain ⟨_, u, hu, -⟩ := ok_of_wp hrun
  exact ⟨u, hu⟩

/-- Right after a harvest its receipt is due nothing. -/
theorem Inv.replay (hK : K.Ideal) (hE : cfg.escrowMode = true) (h : Inv K now s L) {sender sender' : Address}
    {asset asset' : Word} {reward reward' : U 64} (hpos : 0 < reward.val) (hpos' : 0 < reward'.val)
    (hrun : (Call.harvest r asset reward hpos).run K cfg ⟨sender, now⟩ s = .ok () t) :
    ∀ u, claim K cfg ⟨sender', now⟩ r asset' reward' t ≠ .ok () u := by
  obtain ⟨-, rfl, ht⟩ :=
    wp_of_ok (harvest_spec hK hE h hpos) hrun
  intro u hc
  obtain ⟨ha, -⟩ := wp_of_ok (claim_spec hK ht.toBooks hpos') hc
  have hraised : (((s.accrued now).debit reward.val).restamp (r.leaf K) ((L.raise (s.raised now)).due r)).raised now = 0 := by
    rw [raised_restamp, raised_debit, raised_accrued]
  have hle := ha.within
  rw [hraised, raise_zero, settle_due] at hle
  exact absurd hle (Nat.not_le.2 (Nat.mul_pos hpos' (by decide)))

/-- `outstandingReward` after an accrual at `now`. -/
def owedAt (now : Nat) : FarmM Nat := do
  accrue now
  outstandingReward

theorem Inv.owedAt (h : Inv K now s L) {A : Prop} {E : FarmError → Storage → Prop} {Q : Nat → Storage → Prop} :
    wp A (owedAt now) s E Q ↔ Q ((L.raise (s.raised now)).owed / precision) (s.accrued now) := by
  rw [FarmController.owedAt, wp_bind, wp_accrue h.narrow, h.accrued.outstanding]

/-- What a farm in escrow mode guarantees from a state reached at `now`. -/
structure Solvent (K : Keccak) (cfg : Config) (now : Nat) (s : Storage) : Prop where
  stamps : ∃ live : Finset Receipt, (∀ w, s.entryStamped w = true ↔ ∃ r ∈ live, r.leaf K = w) ∧
    s.totalShares = ∑ r ∈ live, r.shares.val ∧
    s.totalRewardDebt = ∑ r ∈ live, r.shares.val * s.entryRps (r.leaf K)
  stored : ∃ owed, outstandingReward s = .ok owed s ∧ owed + s.rate * (s.periodFinish - s.lastUpdate) ≤ s.treasury
  covers : ∀ now', now ≤ now' → now' < 2 ^ 40 →
    ∃ owed t, owedAt now' s = .ok owed t ∧ owed + t.rate * (t.periodFinish - now') ≤ t.treasury ∧ t.treasury = s.treasury
  fair : ∀ now' sender c e t, now ≤ now' → now' < 2 ^ 40 → Call.run K cfg ⟨sender, now'⟩ c s = .err e t →
    e ≠ .panic .mul ∧ e ≠ .panic .sub
  paid : ∀ now' sender r asset reward hpos t, now ≤ now' → now' < 2 ^ 40 →
    claim K cfg ⟨sender, now'⟩ r asset reward s = .ok () t →
    ∃ u, Call.run K cfg ⟨sender, now'⟩ (.harvest r asset reward hpos) s = .ok () u
  reserved : ∀ now' sender recipient ok t, now ≤ now' → now' < 2 ^ 40 →
    Call.run K cfg ⟨sender, now'⟩ (.recover recipient ok) s = .ok () t →
    ∃ owed u, owedAt now' s = .ok owed u ∧ t.treasury = owed ∧ outstandingReward t = .ok owed t
  once : ∀ now' sender sender' r asset asset' reward reward' hpos t u, now ≤ now' → now' < 2 ^ 40 → 0 < reward'.val →
    Call.run K cfg ⟨sender, now'⟩ (.harvest r asset reward hpos) s = .ok () t →
    claim K cfg ⟨sender', now'⟩ r asset' reward' t ≠ .ok () u

theorem Inv.solvent (hK : K.Ideal) (hE : cfg.escrowMode = true) (hR : cfg.receiptMode = true) (h : Inv K now s L) :
    Solvent K cfg now s where
  stamps := by
    refine ⟨L.live, h.stamped, ?_, ?_⟩
    · rw [← h.total, total]
      exact Finset.sum_congr rfl fun r _ => h.shares r
    · rw [← h.debt, debt]
      exact Finset.sum_congr rfl fun r hr => by rw [h.shares, h.entry r hr]
  stored := ⟨_, ok_iff_wp.2 (h.outstanding.2 ⟨rfl, rfl⟩), h.covers⟩
  covers now' hle hlt := by
    have h' := h.later hle hlt
    refine ⟨_, _, ok_iff_wp.2 (h'.owedAt.2 ⟨rfl, rfl⟩), ?_, ?_⟩
    · have hcov := h'.accrued.covers
      have htime := h'.accrued.narrow.time_le
      refine (Nat.add_le_add_left (Nat.mul_le_mul_left _ ?_) _).trans hcov
      exact Nat.sub_le_sub_left htime _
    · rw [Storage.accrued, credit_treasury]
  fair now' sender c e t hle hlt hrun := by
    have hspec : wp False (c.run K cfg ⟨sender, now'⟩) s (fun e _ => Fair e) _ := Call.run_spec hK hE hR (h.later hle hlt) c
    exact wp_of_err (E := fun e _ => Fair e) hspec hrun
  paid now' sender r asset reward hpos t hle hlt hc := (h.later hle hlt).paid hK hE hpos hc
  reserved now' sender recipient ok t hle hlt hrun := by
    have h' := h.later hle hlt
    rw [Call.run] at hrun
    obtain ⟨_, _, hrun, hend⟩ := bind_eq_ok.1 hrun
    obtain ⟨rfl, ht⟩ := wp_of_ok (recover_spec h') hrun
    obtain ⟨-, rfl⟩ := pure_eq_ok.1 hend
    exact ⟨_, _, ok_iff_wp.2 (h'.owedAt.2 ⟨rfl, rfl⟩), rfl, ok_iff_wp.2 (ht.outstanding.2 ⟨rfl, rfl⟩)⟩
  once now' sender sender' r asset asset' reward reward' hpos t u hle hlt hpos' hrun :=
    (h.later hle hlt).replay hK hE hpos hpos' hrun u

end FarmController

open FarmController in
/-- A reward farm in escrow mode is solvent after every run. -/
theorem farm_controller_solvent {K : Keccak} (hK : K.Ideal) {cfg : Config} (hE : cfg.escrowMode = true)
    (hR : cfg.receiptMode = true) {now : Nat} {s : Storage} (h : Reach K cfg now s) : Solvent K cfg now s := by
  obtain ⟨L, hL⟩ := h.inv hK hE hR
  exact hL.solvent hK hE hR

namespace FarmController

/-- An escrow farm of the pool at address 1. -/
def sampleFarm (receiptMode : Bool) : Config where
  pool := 1
  stakeAsset := wordOfNat 7
  rewardAsset := wordOfNat 8
  debtAsset := wordOfNat 9
  escrowMode := true
  receiptMode := receiptMode
  gov := 2
  shape := by decide

end FarmController

open FarmController in
theorem farm_controller_solvent_funded :
    Solvent codeKeccak (sampleFarm true) 0 { construct 0 0 with treasury := 100, rate := 10, periodFinish := 10 } := by
  refine farm_controller_solvent codeKeccak_ideal rfl rfl ?_
  have hfund : Reach codeKeccak (sampleFarm true) 0 { construct 0 0 with treasury := 100 } :=
    Reach.call 0 (.fund 100) (Reach.deploy 0 (by decide)) le_rfl (by decide) rfl (by decide)
  exact Reach.call 2 (.notifyRewardAmount 100 10) hfund le_rfl (by decide) rfl (by decide)

open FarmController in
/-- A lock vault with an escrow bonds shares that no stamp has. -/
theorem lock_vault_has_no_stamps : ∃ s, Reach codeKeccak (sampleFarm false) 0 s ∧
    ¬ ∃ live : Finset Receipt, (∀ w, s.entryStamped w = true ↔ ∃ r ∈ live, r.leaf codeKeccak = w) ∧
      s.totalShares = ∑ r ∈ live, r.shares.val := by
  refine ⟨{ construct 0 0 with totalShares := 5 }, ?_, ?_⟩
  · refine Reach.call 1 (.position [⟨wordOfNat 7, 5⟩] 0 (wordOfNat 3) 0 (by decide)) (Reach.deploy 0 (by decide)) le_rfl (by decide) rfl (by decide)
  · rintro ⟨live, hst, hsum⟩
    have hempty : live = ∅ := by
      refine Finset.eq_empty_of_forall_notMem fun r hr => ?_
      have := (hst (r.leaf codeKeccak)).2 ⟨r, hr, rfl⟩
      exact Bool.false_ne_true this
    rw [hempty, Finset.sum_empty] at hsum
    exact absurd hsum (by decide)

end Tacit
