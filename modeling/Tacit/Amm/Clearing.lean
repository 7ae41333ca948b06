import Tacit.Amm
import Tacit.Lib.Bisect
import Tacit.Lib.Curve
/-!
# The uniform clearing price (lib.rs:2740-2814)

`solve_clearing` prices a batch by a bisection on the net flow the pool must absorb. Traders are then paid at that
one price, each output rounded down (main.rs:1600-1618).
-/
namespace Tacit

/-! ## The solver -/

/-- `delta_b`: what the pool sells for `mid` (lib.rs:2781). -/
def deltaB (rA rB gNum gDen mid : Nat) : Nat := rB * gNum * mid / (rA * gDen + gNum * mid)

/-- `delta_a_implied`: the flow left to the pool when the other side is paid at the price `x / (y + delta_b)`. -/
def deltaAImplied (x y rA rB gNum gDen mid : Nat) : Nat :=
  let denom := y + deltaB rA rB gNum gDen mid
  if denom = 0 then x else x - y * x / denom

/-- The loop of `solve_a_to_b`, given its number of rounds. -/
def searchDeltaA (x y rA rB gNum gDen rounds : Nat) : Nat :=
  bisect (deltaAImplied x y rA rB gNum gDen) rounds 1 x 1

/-- `solve_a_to_b` (lib.rs:2764): numerator and denominator of the price, in A per B. -/
def solveAToB (x y rA rB gNum gDen : Nat) : Nat × Nat :=
  (x, y + deltaB rA rB gNum gDen (searchDeltaA x y rA rB gNum gDen 64))

/-- `solve_clearing` (lib.rs:2730). -/
def solveClearing (x y rA rB : U 64) (feeBps : Nat) : Option (Nat × Nat) :=
  if x = 0 ∧ y = 0 then some (rA.val, if rB = 0 then 1 else rB.val)
  else if rA = 0 ∨ rB = 0 ∨ feeBps > 10000 then none
  else
    let gNum := 10000 - feeBps
    let lhs := x.val * rB.val
    let rhs := y.val * rA.val
    if lhs > rhs then some (solveAToB x.val y.val rA.val rB.val gNum 10000)
    else if lhs < rhs then some (solveAToB y.val x.val rB.val rA.val gNum 10000).swap
    else some (rA.val, rB.val)

/-! ## Settling a batch -/

/-- One trader: the direction and the amount that swaps. -/
structure Trade where
  aToB : Bool
  amountIn : U 64

namespace Trade

/-- The output at the price `num / den`, rounded down. -/
def amountOut (t : Trade) (num den : Nat) : Nat :=
  if t.aToB then t.amountIn.val * den / num else t.amountIn.val * num / den

/-- `gross_a_in`, `gross_b_in`, `gross_a_out`, `gross_b_out`. -/
def grossAIn (batch : List Trade) : Nat := (batch.map fun t => if t.aToB then t.amountIn.val else 0).sum
def grossBIn (batch : List Trade) : Nat := (batch.map fun t => if t.aToB then 0 else t.amountIn.val).sum
def grossAOut (batch : List Trade) (num den : Nat) : Nat :=
  (batch.map fun t => if t.aToB then 0 else t.amountOut num den).sum
def grossBOut (batch : List Trade) (num den : Nat) : Nat :=
  (batch.map fun t => if t.aToB then t.amountOut num den else 0).sum

/-- Rounded apart, the traders of a side get no more than their total rounded once. -/
theorem grossAOut_le (batch : List Trade) (num den : Nat) : grossAOut batch num den ≤ grossBIn batch * num / den := by
  induction batch with
  | nil => exact Nat.zero_le _
  | cons t rest ih =>
    simp only [grossAOut, grossBIn, amountOut, List.map_cons, List.sum_cons] at ih ⊢
    cases t.aToB with
    | true => simpa using ih
    | false =>
      simp only [Bool.false_eq_true, if_false, Nat.add_mul]
      exact (Nat.add_le_add_left ih _).trans Nat.div_add_div_le_add_div

theorem grossBOut_le (batch : List Trade) (num den : Nat) : grossBOut batch num den ≤ grossAIn batch * den / num := by
  induction batch with
  | nil => exact Nat.zero_le _
  | cons t rest ih =>
    simp only [grossBOut, grossAIn, amountOut, List.map_cons, List.sum_cons] at ih ⊢
    cases t.aToB with
    | false => simpa using ih
    | true =>
      simp only [if_true, Nat.add_mul]
      exact (Nat.add_le_add_left ih _).trans Nat.div_add_div_le_add_div

end Trade

/-! ## What a price covers -/

/-- At the price `num / den` the reserves pay both sides, rounded once each, stay positive and keep their product. -/
structure PriceCovers (x y rA rB num den : Nat) : Prop where
  paysA : y * num / den < rA + x
  paysB : x * den / num < rB + y
  product : rA * rB ≤ (rA + x - y * num / den) * (rB + y - x * den / num)

namespace PriceCovers

variable {x y rA rB num den : Nat}

theorem mirror (h : PriceCovers x y rA rB num den) : PriceCovers y x rB rA den num := by
  refine ⟨h.paysB, h.paysA, ?_⟩
  rw [Nat.mul_comm rB, Nat.mul_comm (rB + y - _)]
  exact h.product

/-- Settling pays out no more than what the price covers. -/
theorem settle {batch : List Trade} (h : PriceCovers (Trade.grossAIn batch) (Trade.grossBIn batch) rA rB num den) :
    Trade.grossAOut batch num den < rA + Trade.grossAIn batch ∧ Trade.grossBOut batch num den < rB + Trade.grossBIn batch ∧
      rA * rB ≤ (rA + Trade.grossAIn batch - Trade.grossAOut batch num den) *
        (rB + Trade.grossBIn batch - Trade.grossBOut batch num den) := by
  have hA := Trade.grossAOut_le batch num den
  have hB := Trade.grossBOut_le batch num den
  exact ⟨hA.trans_lt h.paysA, hB.trans_lt h.paysB,
    h.product.trans (Nat.mul_le_mul (Nat.sub_le_sub_left hA _) (Nat.sub_le_sub_left hB _))⟩

/-- The spot price, when the two sides cancel at it. -/
theorem spot (hA : 0 < rA) (hB : 0 < rB) (h : x * rB = y * rA) : PriceCovers x y rA rB rA rB := by
  have ha : y * rA / rB = x := by rw [← h, Nat.mul_div_cancel _ hB]
  have hb : x * rB / rA = y := by rw [h, Nat.mul_div_cancel _ hA]
  refine ⟨by omega, by omega, ?_⟩
  rw [ha, hb, Nat.add_sub_cancel, Nat.add_sub_cancel]

end PriceCovers

section Solver

variable {x y rA rB gNum gDen : Nat}

theorem deltaB_eq_curve (mid : Nat) : deltaB rA rB gNum gDen mid = curveOut rB (rA * gDen) (mid * gNum) := by
  rw [deltaB, curveOut, Nat.mul_comm mid, Nat.mul_assoc]

/-- The guarded division is Lean's, where nothing over nothing is nothing. -/
theorem deltaAImplied_eq (mid : Nat) :
    deltaAImplied x y rA rB gNum gDen mid = x - y * x / (y + deltaB rA rB gNum gDen mid) := by
  unfold deltaAImplied
  dsimp only
  split
  · rename_i h
    rw [h, Nat.div_zero, Nat.sub_zero]
  · rfl

/-- A flow that leaves nothing to the pool is one the pool sells nothing for. -/
theorem deltaB_of_implied_zero {mid : Nat} (hx : 0 < x) (h : deltaAImplied x y rA rB gNum gDen mid = 0) :
    deltaB rA rB gNum gDen mid = 0 := by
  rw [deltaAImplied_eq] at h
  by_cases hne : y + deltaB rA rB gNum gDen mid = 0
  · omega
  · have hle : x ≤ y * x / (y + deltaB rA rB gNum gDen mid) := by omega
    rw [Nat.le_div_iff_mul_le (by omega), Nat.mul_comm y, Nat.mul_add] at hle
    have hz : x * deltaB rA rB gNum gDen mid = 0 := by omega
    exact (Nat.mul_eq_zero.1 hz).resolve_left (by omega)

/-- Rounds past the bits of the larger side change nothing: the search runs to its end. -/
theorem searchDeltaA_rounds (hx : x < 2 ^ 64) (n : Nat) :
    searchDeltaA x y rA rB gNum gDen (64 + n) = searchDeltaA x y rA rB gNum gDen 64 :=
  bisect.extra_rounds (by omega) (by decide) n

/-- The flow the search settles on is one the price leaves to the pool, or one the pool sells nothing for. -/
theorem searchDeltaA_spec (h0 : 0 < x) (hx : x < 2 ^ 64) :
    searchDeltaA x y rA rB gNum gDen 64 ≤ deltaAImplied x y rA rB gNum gDen (searchDeltaA x y rA rB gNum gDen 64) ∨
      deltaB rA rB gNum gDen (searchDeltaA x y rA rB gNum gDen 64) = 0 := by
  obtain ⟨-, hin⟩ | ⟨hone, hlow⟩ := @bisect.spec (deltaAImplied x y rA rB gNum gDen) 64 1 x 1 (by omega) (by decide)
  · exact .inl hin
  · have hzero : deltaAImplied x y rA rB gNum gDen 1 = 0 := by
      have := hlow h0
      omega
    rw [searchDeltaA, hone]
    exact .inr (deltaB_of_implied_zero h0 hzero)

/-- The price of the dominant direction: what the search leaves to the pool pays for what the pool sells. -/
theorem solveAToB_covers (h0 : 0 < x) (hx : x < 2 ^ 64) (hA : 0 < rA) (hB : 0 < rB) (hden : 0 < gDen) (hg : gNum ≤ gDen) :
    PriceCovers x y rA rB (solveAToB x y rA rB gNum gDen).1 (solveAToB x y rA rB gNum gDen).2 := by
  have hspec := @searchDeltaA_spec x y rA rB gNum gDen h0 hx
  unfold solveAToB
  generalize searchDeltaA x y rA rB gNum gDen 64 = mid at *
  rw [deltaAImplied_eq] at hspec
  have hlt : deltaB rA rB gNum gDen mid < rB := by
    rw [deltaB_eq_curve]
    exact curveOut.lt hB (Nat.mul_pos hA hden)
  have hkeep : rA * rB ≤ (rA + mid) * (rB - deltaB rA rB gNum gDen mid) := by
    rw [deltaB_eq_curve]
    exact curveOut.keeps_product hA hden hg mid
  have hpaid : y * x / (y + deltaB rA rB gNum gDen mid) ≤ x :=
    Nat.div_le_of_le_mul (Nat.mul_le_mul_right _ (Nat.le_add_right ..))
  have hsold : x * (y + deltaB rA rB gNum gDen mid) / x = y + deltaB rA rB gNum gDen mid := Nat.mul_div_cancel_left _ h0
  refine ⟨by dsimp only; omega, by dsimp only; omega, ?_⟩
  dsimp only
  rw [hsold, Nat.add_comm rB, Nat.add_sub_add_left]
  obtain hin | hzero := hspec
  · exact hkeep.trans (Nat.mul_le_mul_right _ (by omega))
  · rw [hzero] at hpaid ⊢
    exact Nat.mul_le_mul (by omega) (Nat.sub_zero rB).ge

end Solver

/-- Whatever the solver prices is covered. -/
theorem solveClearing_covers {x y rA rB : U 64} {feeBps : Nat} {price : Nat × Nat} (hA : 0 < rA.val) (hB : 0 < rB.val)
    (h : solveClearing x y rA rB feeBps = some price) : PriceCovers x.val y.val rA.val rB.val price.1 price.2 := by
  have hfee : 10000 - feeBps ≤ 10000 := Nat.sub_le ..
  have hB0 : rB ≠ 0 := fun h => by simp [h] at hB
  unfold solveClearing at h
  by_cases hempty : x = 0 ∧ y = 0
  · rw [if_pos hempty, if_neg hB0] at h
    cases h
    exact .spot hA hB (by simp [hempty.1, hempty.2])
  · rw [if_neg hempty] at h
    split at h
    · cases h
    · dsimp only at h
      split at h
      · rename_i hdom
        cases h
        exact solveAToB_covers (Nat.pos_of_mul_pos_right (Nat.zero_lt_of_lt hdom)) x.isLt hA hB (by decide) hfee
      · split at h
        · rename_i hdom
          cases h
          exact (solveAToB_covers (Nat.pos_of_mul_pos_right (Nat.zero_lt_of_lt hdom)) y.isLt hB hA (by decide) hfee).mirror
        · cases h
          exact .spot hA hB (by omega)

/-- The two sides of the pool are alike: naming them the other way round turns the price upside down. -/
theorem solveClearing_mirror {x y rA rB : U 64} (feeBps : Nat) (hA : 0 < rA.val) (hB : 0 < rB.val) :
    solveClearing y x rB rA feeBps = (solveClearing x y rA rB feeBps).map Prod.swap := by
  have hA0 : rA ≠ 0 := fun h => by simp [h] at hA
  have hB0 : rB ≠ 0 := fun h => by simp [h] at hB
  unfold solveClearing
  by_cases hempty : x = 0 ∧ y = 0
  · simp [hempty.1, hempty.2, hA0, hB0]
  · rw [if_neg hempty, if_neg (fun h => hempty h.symm)]
    by_cases hfee : feeBps > 10000
    · simp [hfee]
    · simp only [hA0, hB0, hfee, or_self, if_false]
      obtain hlt | heq | hgt := Nat.lt_trichotomy (x.val * rB.val) (y.val * rA.val)
      · rw [if_pos hlt, if_neg hlt.asymm, if_pos hlt, Option.map_some, Prod.swap_swap]
      · simp [heq]
      · rw [if_neg hgt.asymm, if_pos hgt, if_pos hgt, Option.map_some]

/-- A price the solver returns never drains the pool, however the flows are split among traders; its search always
runs to its end; and the two sides are alike. -/
theorem solveClearing_never_drains (x y rA rB : U 64) (feeBps : Nat) (hA : 0 < rA.val) (hB : 0 < rB.val) :
    (∀ price, solveClearing x y rA rB feeBps = some price →
      ∀ batch : List Trade, Trade.grossAIn batch = x.val → Trade.grossBIn batch = y.val →
        Trade.grossAOut batch price.1 price.2 < rA.val + x.val ∧ Trade.grossBOut batch price.1 price.2 < rB.val + y.val ∧
        rA.val * rB.val ≤ (rA.val + x.val - Trade.grossAOut batch price.1 price.2) *
          (rB.val + y.val - Trade.grossBOut batch price.1 price.2)) ∧
    (∀ gNum gDen n, searchDeltaA x.val y.val rA.val rB.val gNum gDen (64 + n) =
      searchDeltaA x.val y.val rA.val rB.val gNum gDen 64) ∧
    solveClearing y x rB rA feeBps = (solveClearing x y rA rB feeBps).map Prod.swap := by
  refine ⟨?_, fun gNum gDen n => searchDeltaA_rounds x.isLt n, solveClearing_mirror feeBps hA hB⟩
  intro price hprice batch hx hy
  have hcov := solveClearing_covers hA hB hprice
  rw [← hx, ← hy] at hcov ⊢
  exact hcov.settle

/-- Two sellers of 100 and 50 against one buyer of 30, on a pool of 1000 by 2000 at the highest tier. -/
theorem solveClearing_never_drains_batch :
    ∃ price, solveClearing (U.wrap 64 150) (U.wrap 64 30) (U.wrap 64 1000) (U.wrap 64 2000) 1000 = some price ∧
      Trade.grossBOut [⟨true, U.wrap 64 100⟩, ⟨false, U.wrap 64 30⟩, ⟨true, U.wrap 64 50⟩] price.1 price.2 < 2000 + 30 := by
  have h := (solveClearing_never_drains (U.wrap 64 150) (U.wrap 64 30) (U.wrap 64 1000) (U.wrap 64 2000) 1000 (by decide)
    (by decide)).1 (150, 242) (by decide)
  exact ⟨(150, 242), by decide, (h _ (by decide) (by decide)).2.1⟩

end Tacit
