import Tacit.Amm
import Tacit.Lib.Curve
/-!
# The quote and the floor it is checked against (lib.rs:2309-2336)

A trade is quoted by a floor division (`get_amount_out`) and checked by a cross-multiplied inequality
(`fee_clearing_floor_ok`). Both are the curve of depth `reserve_in · 10000`, paid with the input less its fee.
-/
namespace Tacit

/-- `get_amount_out` (lib.rs:2309) with its fixed-width ends: the fee is subtracted in `u32` and the quotient parsed
as `u128`; in between it is big integers. `none` is the overflow panic. -/
def getAmountOutChecked (amountIn reserveIn reserveOut : U 64) (feeBps : U 32) : Option (U 128) := do
  let gamma ← U.checkedSub (U.wrap 32 10000) feeBps
  let ainG := amountIn.val * gamma.val
  let num := reserveOut.val * ainG
  let den := reserveIn.val * 10000 + ainG
  if den = 0 then none else U.ofNat? 128 (num / den)

section Quote

variable {amountIn rIn rOut : U 64} {feeBps : Nat}

theorem getAmountOut_eq_curve (amountIn rIn rOut : U 64) (feeBps : Nat) :
    getAmountOut amountIn rIn rOut feeBps = curveOut rOut.val (rIn.val * 10000) (amountIn.val * (10000 - feeBps)) := rfl

theorem getAmountOut_lt (hIn : 0 < rIn.val) (hOut : 0 < rOut.val) : getAmountOut amountIn rIn rOut feeBps < rOut.val :=
  curveOut.lt hOut (by omega)

theorem getAmountOut_mono {more : U 64} (hIn : 0 < rIn.val) (h : amountIn ≤ more) :
    getAmountOut amountIn rIn rOut feeBps ≤ getAmountOut more rIn rOut feeBps :=
  curveOut.mono (by omega) (Nat.mul_le_mul_right _ h)

/-- The floor admits exactly the outputs up to the quote. -/
theorem feeClearingFloorOk_iff {out : Nat} (hIn : 0 < rIn.val) (hout : out ≤ rOut.val) :
    feeClearingFloorOk rIn.val amountIn.val (rOut.val - out) (rIn.val * rOut.val) feeBps = true ↔
      out ≤ getAmountOut amountIn rIn rOut feeBps := by
  rw [getAmountOut_eq_curve, curveOut.le_iff (by omega) hout, feeClearingFloorOk, decide_eq_true_iff, Nat.mul_right_comm]

/-- At no fee the quote is the largest output that keeps the product of the reserves. -/
theorem le_getAmountOut_zero {out : Nat} (hIn : 0 < rIn.val) (hout : out ≤ rOut.val) :
    out ≤ getAmountOut amountIn rIn rOut 0 ↔ rIn.val * rOut.val ≤ (rIn.val + amountIn.val) * (rOut.val - out) := by
  rw [getAmountOut_eq_curve, curveOut.le_iff (by omega) hout, Nat.sub_zero, ← Nat.add_mul, ← Nat.mul_assoc,
    Nat.mul_right_comm, Nat.mul_comm (rOut.val - out)]
  exact Nat.mul_le_mul_right_iff (by decide)

theorem getAmountOut_keeps_product (amountIn rOut : U 64) (feeBps : Nat) (hIn : 0 < rIn.val) :
    rIn.val * rOut.val ≤ (rIn.val + amountIn.val) * (rOut.val - getAmountOut amountIn rIn rOut feeBps) :=
  curveOut.keeps_product hIn (by decide) (Nat.sub_le ..) _

/-- Two swaps, the second on the reserves the first leaves, buy no more than one at no fee. -/
theorem getAmountOut_add_le {a b rIn₂ rOut₂ both : U 64} {fee₁ fee₂ : Nat} (hIn : 0 < rIn.val)
    (hIn₂ : rIn₂.val = rIn.val + a.val) (hOut₂ : rOut₂.val + getAmountOut a rIn rOut fee₁ = rOut.val)
    (hboth : both.val = a.val + b.val) :
    getAmountOut a rIn rOut fee₁ + getAmountOut b rIn₂ rOut₂ fee₂ ≤ getAmountOut both rIn rOut 0 := by
  have h₁ := getAmountOut_keeps_product a rOut fee₁ hIn
  have h₂ := getAmountOut_keeps_product b rOut₂ fee₂ (hIn₂ ▸ Nat.lt_add_right _ hIn)
  have hle : getAmountOut b rIn₂ rOut₂ fee₂ ≤ rOut₂.val := curveOut.le ..
  rw [le_getAmountOut_zero hIn (by omega)]
  calc rIn.val * rOut.val ≤ (rIn.val + a.val) * (rOut.val - getAmountOut a rIn rOut fee₁) := h₁
    _ = rIn₂.val * rOut₂.val := by rw [hIn₂, ← hOut₂, Nat.add_sub_cancel]
    _ ≤ (rIn₂.val + b.val) * (rOut₂.val - getAmountOut b rIn₂ rOut₂ fee₂) := h₂
    _ = (rIn.val + both.val) * (rOut.val - (getAmountOut a rIn rOut fee₁ + getAmountOut b rIn₂ rOut₂ fee₂)) := by
      rw [hIn₂, hboth, Nat.add_assoc, ← hOut₂, Nat.add_comm rOut₂.val, Nat.add_sub_add_left]

/-- Under an allowed fee no fixed-width end of the computation overflows. -/
theorem getAmountOutChecked_eq {feeBps : U 32} (hIn : 0 < rIn.val) (hOut : 0 < rOut.val)
    (hfee : feeBps.val ≤ ammMaxPoolFeeBps) :
    ∃ v, getAmountOutChecked amountIn rIn rOut feeBps = some v ∧ v.val = getAmountOut amountIn rIn rOut feeBps.val := by
  have hlt : getAmountOut amountIn rIn rOut feeBps.val < 2 ^ 128 :=
    (getAmountOut_lt hIn hOut).trans (rOut.isLt.trans (by decide))
  have hgamma : U.checkedSub (U.wrap 32 10000) feeBps = some (U.saturatingSub (U.wrap 32 10000) feeBps) := by
    rw [U.checkedSub_eq_some]
    exact ⟨le_trans hfee (by decide), rfl⟩
  refine ⟨⟨_, hlt⟩, ?_, rfl⟩
  simp only [getAmountOutChecked, hgamma, Option.bind_eq_bind, Option.bind_some]
  rw [if_neg (by omega), U.ofNat?_eq_some]
  rfl

end Quote

/-- The floor check is the quote: it admits an output exactly when the quote covers it. The quote leaves some of the
reserve, fits its type, grows with the input, keeps the product, and splitting a trade in two buys nothing more. -/
theorem fee_floor_exact (rIn rOut amountIn : U 64) (feeBps : U 32) (hIn : 0 < rIn.val) (hOut : 0 < rOut.val)
    (hfee : feeBps.val ≤ ammMaxPoolFeeBps) :
    (∀ out : U 64, out ≤ rOut →
      (feeClearingFloorOk rIn.val amountIn.val (rOut.val - out.val) (rIn.val * rOut.val) feeBps.val = true ↔
        out.val ≤ getAmountOut amountIn rIn rOut feeBps.val)) ∧
    getAmountOut amountIn rIn rOut feeBps.val < rOut.val ∧
    (∃ v, getAmountOutChecked amountIn rIn rOut feeBps = some v ∧ v.val = getAmountOut amountIn rIn rOut feeBps.val) ∧
    (∀ more : U 64, amountIn ≤ more →
      getAmountOut amountIn rIn rOut feeBps.val ≤ getAmountOut more rIn rOut feeBps.val) ∧
    rIn.val * rOut.val ≤ (rIn.val + amountIn.val) * (rOut.val - getAmountOut amountIn rIn rOut feeBps.val) ∧
    ∀ (b rIn₂ rOut₂ both : U 64) (fee₂ : U 32), rIn₂.val = rIn.val + amountIn.val →
      rOut₂.val + getAmountOut amountIn rIn rOut feeBps.val = rOut.val → both.val = amountIn.val + b.val →
      getAmountOut amountIn rIn rOut feeBps.val + getAmountOut b rIn₂ rOut₂ fee₂.val ≤ getAmountOut both rIn rOut 0 := by
  refine ⟨fun out hout => feeClearingFloorOk_iff hIn hout, getAmountOut_lt hIn hOut,
    getAmountOutChecked_eq hIn hOut hfee, fun more hmore => getAmountOut_mono hIn hmore,
    getAmountOut_keeps_product _ _ _ hIn, ?_⟩
  intro b rIn₂ rOut₂ both fee₂ hIn₂ hOut₂ hboth
  exact getAmountOut_add_le hIn hIn₂ hOut₂ hboth

/-- A pool of one unit against 1002001, at the highest tier: one unit in buys 474632. -/
theorem fee_floor_exact_imbalanced :
    feeClearingFloorOk 1 1 (1002001 - 474632) (1 * 1002001) 1000 = true ∧
      getAmountOut (1 : U 64) 1 (U.wrap 64 1002001) 1000 < 1002001 := by
  have h := fee_floor_exact 1 (U.wrap 64 1002001) 1 (U.wrap 32 1000) (by decide) (by decide) (by decide)
  exact ⟨(h.1 (U.wrap 64 474632) (by decide)).2 (by decide), h.2.1⟩

end Tacit
