import Mathlib.Analysis.Real.Sqrt
import Mathlib.Tactic.Linarith
import Mathlib.Tactic.NormNum
import Tacit.Reflection.State
/-!
# The protocol fee of a pool (lib.rs:2714-2731, :4170-4192)

Crystallizing mints the fee as shares, out of the growth of the root of `k` since `k_last`. The code takes integer
roots. Measured in those, the shares are worth no more than their part of the growth and the holders lose nothing;
measured in the real root of `k`, both hold up to one unit of the root (`crystallize_exceeds_real_root`: not exactly).
-/
namespace Tacit

/-- `k_now`: the product of the reserves. -/
def PoolReserveState.kNow (p : PoolReserveState) : Nat := p.reserveA.val * p.reserveB.val

/-- The shares `crystallize_protocol_fee` mints. -/
def PoolReserveState.feeShares (p : PoolReserveState) : U 64 :=
  protocolFeeShares p.totalShares p.kLast p.kNow p.protocolFeeBps

section Shares

variable {sPre : U 64} {kPre kNow : Nat} {feeBps : U 16}

theorem saturate_le (w n : Nat) : (U.saturate w n).val ≤ n := Nat.min_le_left ..

theorem protocolFeeShares_of_le (h : kNow ≤ kPre) : protocolFeeShares sPre kPre kNow feeBps = 0 := by
  unfold protocolFeeShares
  rw [if_pos (.inr (.inr h))]

theorem protocolFeeShares_of_bps_zero : protocolFeeShares sPre kPre kNow 0 = 0 := by
  unfold protocolFeeShares
  rw [if_pos (.inl rfl)]

/-- The quotient the shares are floored to, cleared of its denominator. Saturation only lowers it. -/
theorem protocolFeeShares_le (sPre : U 64) (kPre kNow : Nat) (feeBps : U 16) :
    (protocolFeeShares sPre kPre kNow feeBps).val * ((10000 - feeBps.val) * isqrt kNow + feeBps.val * isqrt kPre) ≤
      sPre.val * feeBps.val * (isqrt kNow - isqrt kPre) := by
  unfold protocolFeeShares
  split
  · simp
  · dsimp only
    split
    · simp
    · split
      · simp
      · exact (Nat.mul_le_mul_right _ (saturate_le ..)).trans (Nat.div_mul_le_self ..)

/-- What the shares are worth, in integer roots, against the growth. -/
theorem protocolFeeShares_value (sPre : U 64) (kPre kNow : Nat) (hbps : feeBps.val < 10000) :
    (protocolFeeShares sPre kPre kNow feeBps).val * isqrt kNow * 10000 ≤
      feeBps.val * (isqrt kNow - isqrt kPre) * (sPre.val + (protocolFeeShares sPre kPre kNow feeBps).val) := by
  by_cases hle : kNow ≤ kPre
  · simp [protocolFeeShares_of_le hle]
  · have h := protocolFeeShares_le sPre kPre kNow feeBps
    generalize (protocolFeeShares sPre kPre kNow feeBps).val = s at *
    obtain ⟨rest, hrest⟩ := Nat.exists_eq_add_of_lt hbps
    obtain ⟨growth, hgrow⟩ := Nat.exists_eq_add_of_le (show isqrt kPre ≤ isqrt kNow from Nat.sqrt_le_sqrt (by omega))
    have hgam : 10000 - feeBps.val = rest + 1 := by omega
    rw [hgam, hgrow, Nat.add_sub_cancel_left] at h
    rw [hgrow, Nat.add_sub_cancel_left, hrest]
    linarith

/-- The holders' integer root per share does not fall while `k` does not. -/
theorem protocolFeeShares_perShare (sPre : U 64) (hbps : feeBps.val < 10000) (hk : kPre ≤ kNow) :
    isqrt kPre * (sPre.val + (protocolFeeShares sPre kPre kNow feeBps).val) ≤ isqrt kNow * sPre.val := by
  have h := protocolFeeShares_value sPre kPre kNow hbps
  generalize (protocolFeeShares sPre kPre kNow feeBps).val = s at *
  obtain ⟨growth, hgrow⟩ := Nat.exists_eq_add_of_le (show isqrt kPre ≤ isqrt kNow from Nat.sqrt_le_sqrt hk)
  rw [hgrow, Nat.add_sub_cancel_left] at h
  rw [hgrow]
  have hcap : feeBps.val * growth * (sPre.val + s) ≤ 10000 * growth * (sPre.val + s) := by gcongr
  linarith

end Shares

/-! ## In the real root -/

section Real

theorem isqrt_le_sqrt (n : Nat) : (isqrt n : ℝ) ≤ √n := Real.nat_sqrt_le_real_sqrt

theorem sqrt_lt_isqrt (n : Nat) : √n < isqrt n + 1 := Real.real_sqrt_lt_nat_sqrt_succ

variable {s sPre bps kPre kNow : Nat}

/-- An exact bound in integer roots is a bound in the real root, up to one unit of it. -/
theorem value_real (h : s * isqrt kNow * 10000 ≤ bps * (isqrt kNow - isqrt kPre) * (sPre + s)) (hk : kPre ≤ kNow)
    (hnow : 0 < kNow) :
    (s : ℝ) * √kNow * 10000 ≤ bps * (√kNow - √kPre + 1) * (sPre + s) := by
  have hroot : (0 : ℝ) < isqrt kNow := Nat.cast_pos.2 (Nat.sqrt_pos.2 hnow)
  have hcast : (s : ℝ) * isqrt kNow * 10000 ≤ bps * (isqrt kNow - isqrt kPre) * (sPre + s) := by
    have hle : isqrt kPre ≤ isqrt kNow := Nat.sqrt_le_sqrt hk
    have h' : ((s * isqrt kNow * 10000 : ℕ) : ℝ) ≤ ((bps * (isqrt kNow - isqrt kPre) * (sPre + s) : ℕ) : ℝ) :=
      Nat.cast_le.2 h
    push_cast [hle] at h'
    exact h'
  -- the growth in integer roots, carried over to the real root
  have hgrowth : √kNow * (isqrt kNow - isqrt kPre : ℝ) ≤ isqrt kNow * (√kNow - √kPre + 1) := by
    have h1 : (isqrt kNow : ℝ) * (√kPre - 1) ≤ isqrt kNow * isqrt kPre :=
      mul_le_mul_of_nonneg_left (by linarith [sqrt_lt_isqrt kPre]) hroot.le
    have h2 : (isqrt kNow : ℝ) * isqrt kPre ≤ √kNow * isqrt kPre :=
      mul_le_mul_of_nonneg_right (isqrt_le_sqrt kNow) (Nat.cast_nonneg _)
    linarith
  refine le_of_mul_le_mul_left ?_ hroot
  calc (isqrt kNow : ℝ) * (s * √kNow * 10000) = √kNow * (s * isqrt kNow * 10000) := by ring
    _ ≤ √kNow * (bps * (isqrt kNow - isqrt kPre) * (sPre + s)) := mul_le_mul_of_nonneg_left hcast (Real.sqrt_nonneg _)
    _ = √kNow * (isqrt kNow - isqrt kPre : ℝ) * (bps * (sPre + s)) := by ring
    _ ≤ isqrt kNow * (√kNow - √kPre + 1) * (bps * (sPre + s)) := mul_le_mul_of_nonneg_right hgrowth (by positivity)
    _ = isqrt kNow * (bps * (√kNow - √kPre + 1) * (sPre + s)) := by ring

theorem perShare_real (h : isqrt kPre * (sPre + s) ≤ isqrt kNow * sPre) :
    (√kPre - 1) * (sPre + s) ≤ √kNow * sPre := by
  have hcast : (isqrt kPre : ℝ) * (sPre + s) ≤ isqrt kNow * sPre := by exact_mod_cast h
  calc (√kPre - 1) * (sPre + s) ≤ isqrt kPre * (sPre + s) := by
        gcongr
        linarith [sqrt_lt_isqrt kPre]
    _ ≤ isqrt kNow * sPre := hcast
    _ ≤ √kNow * sPre := by
        gcongr
        exact isqrt_le_sqrt kNow

end Real

/-! ## Crystallizing -/

namespace PoolReserveState

variable {p q : PoolReserveState}

/-- Crystallizing mints the fee shares, to the total and to the accrued ones, and leaves no growth behind. -/
theorem crystallize_mints (h : p.crystallizeProtocolFee = some q) :
    q.totalShares.val = p.totalShares.val + p.feeShares.val ∧
      q.protocolFeeAccrued.val = p.protocolFeeAccrued.val + p.feeShares.val ∧
      (p.protocolFeeBps = 0 ∧ q = p ∨ p.protocolFeeBps ≠ 0 ∧ q.kLast = q.kNow) := by
  unfold crystallizeProtocolFee at h
  split at h
  · rename_i hbps
    cases h
    simp [feeShares, hbps, protocolFeeShares_of_bps_zero]
  · rename_i hbps
    dsimp only at h
    split at h
    · rename_i hle
      cases h
      simp [feeShares, protocolFeeShares_of_le hle, kNow, hbps]
    · simp only [Option.bind_eq_bind, Option.bind_eq_some_iff, U.checkedAdd_eq_some, Option.some.injEq] at h
      obtain ⟨accrued, hacc, total, htot, rfl⟩ := h
      exact ⟨htot, hacc, .inr ⟨hbps, rfl⟩⟩

/-- A crystallized pool crystallizes to itself. -/
theorem crystallize_again (h : p.crystallizeProtocolFee = some q) : q.crystallizeProtocolFee = some q := by
  obtain ⟨-, -, ⟨hbps, rfl⟩ | ⟨-, hk⟩⟩ := crystallize_mints h
  · exact h
  · unfold kNow at hk
    unfold crystallizeProtocolFee
    split
    · rfl
    · dsimp only
      rw [if_pos hk.ge, ← hk]

end PoolReserveState

/-- Crystallizing mints no more than the fee's part of the growth, leaves the holders whole, mints nothing without
growth, and mints nothing a second time. The roots are the code's integer ones; in the real root the two bounds hold up
to one unit of it. -/
theorem crystallize_bounded (p : PoolReserveState) (hbps : p.protocolFeeBps.val < 10000) :
    (p.feeShares.val * isqrt p.kNow * 10000 ≤
        p.protocolFeeBps.val * (isqrt p.kNow - isqrt p.kLast) * (p.totalShares.val + p.feeShares.val) ∧
      (p.kLast ≤ p.kNow → isqrt p.kLast * (p.totalShares.val + p.feeShares.val) ≤ isqrt p.kNow * p.totalShares.val)) ∧
    (p.kLast ≤ p.kNow →
      (p.feeShares.val : ℝ) * √p.kNow * 10000 ≤
        p.protocolFeeBps.val * (√p.kNow - √p.kLast + 1) * (p.totalShares.val + p.feeShares.val) ∧
      (√p.kLast - 1) * (p.totalShares.val + p.feeShares.val) ≤ √p.kNow * p.totalShares.val) ∧
    (p.kNow ≤ p.kLast → p.feeShares = 0) ∧
    ∀ q, p.crystallizeProtocolFee = some q →
      q.totalShares.val = p.totalShares.val + p.feeShares.val ∧
      q.protocolFeeAccrued.val = p.protocolFeeAccrued.val + p.feeShares.val ∧
      q.feeShares = 0 ∧ q.crystallizeProtocolFee = some q := by
  have hvalue := protocolFeeShares_value p.totalShares p.kLast p.kNow hbps
  refine ⟨⟨hvalue, protocolFeeShares_perShare _ hbps⟩, fun hk => ⟨?_, ?_⟩, protocolFeeShares_of_le, fun q h => ?_⟩
  · obtain hzero | hpos := Nat.eq_zero_or_pos p.kNow
    · have hs : p.feeShares = 0 := protocolFeeShares_of_le (by omega)
      have hlast : p.kLast = 0 := by omega
      rw [hs, hzero, hlast]
      simp
      positivity
    · exact value_real hvalue hk hpos
  · exact perShare_real (protocolFeeShares_perShare _ hbps hk)
  · obtain ⟨htotal, haccrued, hend⟩ := PoolReserveState.crystallize_mints h
    refine ⟨htotal, haccrued, ?_, PoolReserveState.crystallize_again h⟩
    obtain ⟨hbps, rfl⟩ | ⟨-, hk⟩ := hend
    · rw [PoolReserveState.feeShares, hbps, protocolFeeShares_of_bps_zero]
    · exact protocolFeeShares_of_le hk.ge

/-- A pool seeded with 1001 against 1003 at the highest fee tier, after one trade of 529. -/
def tradedPool : PoolReserveState where
  assetA := 0
  assetB := wordOfNat 1
  reserveA := U.wrap 64 (1001 + 529)
  reserveB := U.wrap 64 680
  totalShares := U.wrap 64 1001
  c0Backed := true
  feeBps := U.wrap 16 1000
  capabilityFlags := 0
  protocolFeeBps := U.wrap 16 9999
  kLast := 1001 * 1003
  protocolFeeAccrued := 0

theorem tradedPool_roots : isqrt tradedPool.kLast = 1001 ∧ isqrt tradedPool.kNow = 1020 :=
  ⟨(Nat.eq_sqrt.2 (by decide)).symm, (Nat.eq_sqrt.2 (by decide)).symm⟩

theorem tradedPool_feeShares : tradedPool.feeShares = U.wrap 64 18 := by
  unfold PoolReserveState.feeShares protocolFeeShares
  rw [tradedPool_roots.1, tradedPool_roots.2]
  decide

theorem crystallize_bounded_traded :
    isqrt tradedPool.kLast * (tradedPool.totalShares.val + tradedPool.feeShares.val) ≤
      isqrt tradedPool.kNow * tradedPool.totalShares.val :=
  (crystallize_bounded tradedPool (by decide)).1.2 (by decide)

/-- In the real root the mint takes more than its part of the growth and the holders lose: the integer root of `k_last`
is almost a unit below the real one. -/
theorem crystallize_exceeds_real_root :
    isqrt tradedPool.kLast = tradedPool.totalShares.val ∧
    tradedPool.reserveB.val + getAmountOut (U.wrap 64 529) (U.wrap 64 1001) (U.wrap 64 1003) tradedPool.feeBps.val = 1003 ∧
    (∃ q, tradedPool.crystallizeProtocolFee = some q) ∧
    ¬ (tradedPool.feeShares.val : ℝ) / (tradedPool.totalShares.val + tradedPool.feeShares.val) * √tradedPool.kNow ≤
      tradedPool.protocolFeeBps.val / 10000 * (√tradedPool.kNow - √tradedPool.kLast) ∧
    ¬ √tradedPool.kLast / tradedPool.totalShares.val ≤
      √tradedPool.kNow / (tradedPool.totalShares.val + tradedPool.feeShares.val) := by
  have hnow : √(tradedPool.kNow : ℝ) = 1020 := by
    rw [Real.sqrt_eq_iff_mul_self_eq_of_pos (by norm_num)]
    norm_num [PoolReserveState.kNow, tradedPool, U.wrap]
  have hlast : (1001.99 : ℝ) < √1004003 := by
    apply Real.lt_sqrt_of_sq_lt
    norm_num
  refine ⟨tradedPool_roots.1, by decide, ?_, ?_, ?_⟩
  · have hs := tradedPool_feeShares
    unfold PoolReserveState.feeShares PoolReserveState.kNow at hs
    unfold PoolReserveState.crystallizeProtocolFee
    rw [if_neg (by decide), if_neg (by decide), hs]
    exact ⟨_, rfl⟩
  · rw [tradedPool_feeShares, hnow]
    norm_num [tradedPool, U.wrap]
    linarith
  · rw [tradedPool_feeShares, hnow]
    norm_num [tradedPool, U.wrap]
    linarith

end Tacit
