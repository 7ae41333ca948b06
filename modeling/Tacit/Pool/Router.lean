import Mathlib.Data.Nat.Sqrt
import Mathlib.Tactic.Linarith
import Tacit.Lib.Throws
import Tacit.Pool.ShareValue
/-!
# The public AMM router (contracts/src/TacitPublicAmm.sol)

The router reads a pair, pulls the caller's funds, quotes, and calls the pool's applicator with the quote, which
the pool checks again. `ammOut`, `quoteAdd` and `isqrt` are its arithmetic; a quote from a sound pair passes the
pool's checks.

While funds are pulled the tokens run code of their own, which may call the pool (`RouterEnv.during`): the pair
the applicator meets is then not the pair that was quoted.
-/
namespace Tacit

open Prog

namespace TacitPublicAmm

open ConfidentialPool

/-- The router's own errors, a failed token call, a Solidity panic, and an error of the pool passed on. -/
inductive RouterError
  | expired
  | sameAsset
  | poolNotInit
  | zeroAddress
  | notRegistered
  | valueOutOfRange
  | amountNotAligned
  | slippageExceeded
  | insufficientLiquidity
  | external
  | arithmetic
  | pool (e : PoolError)

/-- What a router call finds: its own environment, the pool's, and the calls to the pool that a token makes while
it is pulled from. -/
structure RouterEnv where
  self : Address
  sender : Address
  value : Nat
  timestamp : Nat
  pulls : Address → Address → Nat → Bool
  during : Address → List (Env × Call)
  pool : Env

/-- The pool's environment when the router calls it. -/
def RouterEnv.toPool (env : RouterEnv) : Env := { env.pool with sender := env.self, value := env.value }

/-! ## Arithmetic -/

/-- `_toValue` (:255). -/
def toValue (amount unitScale : Nat) : Except RouterError Nat := do
  refuse (amount = 0 ∨ unitScale = 0 ∨ amount % unitScale ≠ 0) .amountNotAligned
  refuse (2 ^ 64 - 1 < amount / unitScale) .valueOutOfRange
  return amount / unitScale

/-- `_ammOut` (:267). -/
def ammOut (reserveIn reserveOut vIn feeBps : Nat) : Except RouterError Nat := do
  let vInG := wrapMul vIn (wrapSub 10000 feeBps)
  let d := wrapAdd (wrapMul reserveIn 10000) vInG
  refuse (d = 0) .arithmetic
  let vOut := wrapMul reserveOut vInG / d
  refuse (vOut = 0 ∨ reserveOut ≤ vOut) .insufficientLiquidity
  return vOut

/-- The loop of `_isqrt` (:285); a division by zero panics. -/
def isqrtLoop (x y z : Nat) : Option Nat :=
  if h : z < y then if z = 0 then none else isqrtLoop x z (wrapAdd (x / z) z / 2)
  else some y
termination_by y

/-- `_isqrt` (:281). -/
def isqrt (x : Nat) : Option Nat := isqrtLoop x x (wrapAdd x 1 / 2)

/-- `_ceilDiv` (:294); a division by zero panics. -/
def ceilDiv (x y : Nat) : Except RouterError Nat := do
  refuse (y = 0) .arithmetic
  return wrapSub (wrapAdd x y) 1 / y

/-- A checked division. -/
def checkedDiv (x y : Nat) : Except RouterError Nat := do
  refuse (y = 0) .arithmetic
  return x / y

/-- The quote of a liquidity add (:124-:141): shares and the reserves to add. -/
def quoteAdd (p : Pool) (vLo vHi : Nat) : Except RouterError (Nat × Nat × Nat) :=
  if p.init = true ∧ p.totalShares ≠ 0 then do
    let nA ← need (uint256 (vLo * p.totalShares)) .arithmetic
    let sA ← checkedDiv nA p.reserveA
    let nB ← need (uint256 (vHi * p.totalShares)) .arithmetic
    let sB ← checkedDiv nB p.reserveB
    let minted := if sA < sB then sA else sB
    refuse (minted = 0) .insufficientLiquidity
    let mA ← need (uint256 (minted * p.reserveA)) .arithmetic
    let addLo ← ceilDiv mA p.totalShares
    let mB ← need (uint256 (minted * p.reserveB)) .arithmetic
    let addHi ← ceilDiv mB p.totalShares
    return (minted, addLo, addHi)
  else do
    let k ← need (uint256 (vLo * vHi)) .arithmetic
    let minted ← need (isqrt k) .arithmetic
    refuse (minted ≤ minimumLiquidity) .insufficientLiquidity
    return (minted, vLo, vHi)

/-! ## Entry points -/

variable (D : Deployment) (env : RouterEnv)

/-- `_checkDeadline` (:300). -/
def checkDeadline (deadline : Nat) : Prog Storage RouterError Unit :=
  check (deadline ≠ 0 ∧ deadline < env.timestamp) .expired

/-- `_checkRecipient` (:304). -/
def checkRecipient (recipient : Address) : Prog Storage RouterError Unit :=
  check (recipient = 0 ∨ recipient = D.self ∨ recipient = env.self) .zeroAddress

/-- The token's `transferFrom` and `approve` (:249-:252), and what it does to the pool meanwhile. -/
def pull (token : Address) (amount : Nat) : Prog Storage RouterError Unit := do
  modify fun s => run D s (env.during token)
  check (env.pulls token env.sender amount = false) .external

/-- `_pullForPool` (:245). -/
def pullForPool (assetId : Word) (amount : Nat) : Prog Storage RouterError Nat := do
  let s ← get
  check ((s.assets assetId).registered = false) .notRegistered
  let value ← ofExcept (toValue amount (s.assets assetId).unitScale)
  onlyIf ((s.assets assetId).underlying ≠ 0) (pull D env (s.assets assetId).underlying amount)
  return value

/-- The sorted legs of a pair with their amounts (:119-:120). -/
def sortLegs (assetA assetB : Word) (amountA amountB : Nat) : Word × Word × Nat × Nat :=
  if assetA < assetB then (assetA, assetB, amountA, amountB) else (assetB, assetA, amountB, amountA)

/-- `createPairAndAddLiquidityPublic` (:105). -/
def createPairAndAddLiquidityPublic (assetA assetB : Word) (feeBps amountA amountB minSharesOut deadline : Nat)
    (recipient : Address) : Prog Storage RouterError Nat := do
  checkDeadline env deadline
  checkRecipient D env recipient
  check (assetA = assetB) .sameAsset
  let legs := sortLegs assetA assetB amountA amountB
  let s ← get
  let p := s.pools (poolId D legs.1 legs.2.1 feeBps)
  let vLo ← pullForPool D env legs.1 legs.2.2.1
  let vHi ← pullForPool D env legs.2.1 legs.2.2.2
  let q ← ofExcept (quoteAdd p vLo vHi)
  let sharesMinted ← mapErr .pool (applyPublicAddLiquidity D env.toPool legs.1 legs.2.1 feeBps legs.2.2.1 legs.2.2.2
    q.1 q.2.1 q.2.2 recipient)
  check (sharesMinted < minSharesOut) .slippageExceeded
  return sharesMinted

/-- `swapPublic` (:195). -/
def swapPublic (assetIn assetOut : Word) (feeBps amountIn minAmountOut deadline : Nat) (recipient : Address) :
    Prog Storage RouterError Nat := do
  checkDeadline env deadline
  checkRecipient D env recipient
  check (assetIn = assetOut) .sameAsset
  let pair := sortPair assetIn assetOut
  let s ← get
  let p := s.pools (poolId D pair.1 pair.2 feeBps)
  check (p.init = false) .poolNotInit
  let vIn ← pullForPool D env assetIn amountIn
  let reserves := if assetIn = pair.1 then (p.reserveA, p.reserveB) else (p.reserveB, p.reserveA)
  let vOut ← ofExcept (ammOut reserves.1 reserves.2 vIn p.feeBps)
  let amountOut ← mapErr .pool (applyPublicSwap D env.toPool assetIn assetOut feeBps amountIn vOut recipient)
  check (amountOut < minAmountOut) .slippageExceeded
  return amountOut

/-! ## The square root -/

/-- Newton's step from above stays above. -/
theorem lt_newton_sq {x y : Nat} (hy : 0 < y) : x < ((x / y + y) / 2 + 1) * ((x / y + y) / 2 + 1) := by
  have hq : x < (x / y + 1) * y := by
    rw [Nat.add_mul, Nat.one_mul]
    exact Nat.lt_div_mul_add hy
  have hz : x / y + y + 1 ≤ 2 * ((x / y + y) / 2 + 1) := by omega
  have hsq : 4 * ((x / y + 1) * y) ≤ (x / y + 1 + y) * (x / y + 1 + y) := by
    nlinarith [sq_nonneg ((x / y + 1 : ℤ) - y)]
  have hle := Nat.mul_le_mul hz hz
  nlinarith

/-- Neither the first guess nor a later one overflows. -/
theorem div_add_le {x z : Nat} (hz : 0 < z) (hx : z ≤ x) : x / z + z ≤ x + 1 := by
  have hq : 1 ≤ x / z := (Nat.one_le_div_iff hz).2 hx
  have hmul : x / z * z ≤ x := Nat.div_mul_le_self x z
  nlinarith

/-- From any guess above the root, the loop ends with the root. -/
theorem isqrtLoop_eq {x : Nat} (hx : x + 1 < 2 ^ 256) : ∀ {y : Nat}, 0 < y → y ≤ x → x < (y + 1) * (y + 1) →
    isqrtLoop x y ((x / y + y) / 2) = some (Nat.sqrt x) := by
  intro y
  induction y using Nat.strong_induction_on with
  | _ y ih =>
    intro hy hyx habove
    unfold isqrtLoop
    by_cases hlt : (x / y + y) / 2 < y
    · have hq : 1 ≤ x / y := (Nat.one_le_div_iff hy).2 hyx
      have hz : 0 < (x / y + y) / 2 := by omega
      have hzx : (x / y + y) / 2 ≤ x := by omega
      have hfits := div_add_le hz hzx
      rw [dif_pos hlt, if_neg (by omega), wrapAdd_eq (by omega)]
      exact ih _ hlt hz hzx (lt_newton_sq hy)
    · -- the guess no longer falls: its square is at most x
      have hle : y ≤ x / y := by omega
      have hsq : y * y ≤ x := (Nat.mul_le_mul_right y hle).trans (Nat.div_mul_le_self x y)
      rw [dif_neg hlt]
      exact congrArg some (Nat.eq_sqrt.2 ⟨hsq, habove⟩)

/-- **`_isqrt` is the floor of the square root**, for every word but the last. -/
theorem isqrt_eq {x : Nat} (hx : x + 1 < 2 ^ 256) : isqrt x = some (Nat.sqrt x) := by
  unfold isqrt
  rcases Nat.eq_zero_or_pos x with rfl | hpos
  · simp [isqrtLoop]
  · have hstart : (x + 1) / 2 = (x / x + x) / 2 := by rw [Nat.div_self hpos, Nat.add_comm]
    rw [wrapAdd_eq hx, hstart]
    exact isqrtLoop_eq hx hpos le_rfl (by nlinarith)

/-! ## Quotes and the pool's checks -/

/-- The errors by which the pool rejects a quote. -/
def RejectsQuote : PoolError → Prop
  | .constantProductDecreased | .insufficientLiquidity => True
  | _ => False

/-- The fee only lowers the output, so the product of the reserves does not fall. -/
theorem product_le_of_out {rIn rOut vIn vOut γ : Nat} (hγ0 : 0 < γ) (hγ : γ ≤ 10000) (hout : vOut ≤ rOut)
    (h : vOut * (rIn * 10000 + vIn * γ) ≤ rOut * (vIn * γ)) : rIn * rOut ≤ (rIn + vIn) * (rOut - vOut) := by
  have hscaled : γ * (vOut * (rIn + vIn)) ≤ γ * (vIn * rOut) := by
    calc γ * (vOut * (rIn + vIn)) = vOut * (rIn * γ + vIn * γ) := by ring
      _ ≤ vOut * (rIn * 10000 + vIn * γ) := by gcongr
      _ ≤ rOut * (vIn * γ) := h
      _ = γ * (vIn * rOut) := by ring
  have hle : vOut * (rIn + vIn) ≤ vIn * rOut := Nat.le_of_mul_le_mul_left hscaled hγ0
  obtain ⟨d, rfl⟩ := Nat.exists_eq_add_of_le hout
  rw [Nat.add_sub_cancel_left]
  nlinarith

/-- What an accepted swap quote satisfies. -/
theorem ammOut_ok {rIn rOut vIn feeBps vOut : Nat} (hIn : rIn < 2 ^ 64) (hOut : rOut < 2 ^ 64) (hv : vIn < 2 ^ 64)
    (hfee : feeBps ≤ maxPoolFeeBps) (hok : ammOut rIn rOut vIn feeBps = .ok vOut) :
    0 < vOut ∧ vOut < rOut ∧ rIn * rOut ≤ (rIn + vIn) * (rOut - vOut) := by
  unfold maxPoolFeeBps at hfee
  have hγ : wrapSub 10000 feeBps = 10000 - feeBps := wrapSub_eq (by omega) (by norm_num)
  have hG : vIn * (10000 - feeBps) ≤ 2 ^ 64 * 10000 := Nat.mul_le_mul (le_of_lt hv) (Nat.sub_le _ _)
  have hN : rOut * (vIn * (10000 - feeBps)) ≤ 2 ^ 64 * (2 ^ 64 * 10000) := Nat.mul_le_mul (le_of_lt hOut) hG
  have hGw : wrapMul vIn (10000 - feeBps) = vIn * (10000 - feeBps) := wrapMul_eq (by omega)
  have hDw : wrapMul rIn 10000 = rIn * 10000 := wrapMul_eq (by omega)
  have hSw : wrapAdd (rIn * 10000) (vIn * (10000 - feeBps)) = rIn * 10000 + vIn * (10000 - feeBps) :=
    wrapAdd_eq (by omega)
  have hNw : wrapMul rOut (vIn * (10000 - feeBps)) = rOut * (vIn * (10000 - feeBps)) := wrapMul_eq (by omega)
  simp only [ammOut, hγ, hGw, hDw, hSw, hNw, except_bind_eq_ok, refuse_eq_ok, except_pure_eq_ok, not_or, not_le] at hok
  obtain ⟨_, -, _, ⟨hne, hlt⟩, rfl⟩ := hok
  refine ⟨Nat.pos_of_ne_zero hne, hlt, ?_⟩
  exact product_le_of_out (by omega) (Nat.sub_le _ _) (le_of_lt hlt) (Nat.div_mul_le_self _ _)

/-- The pool's check of a swap, on reserves where nothing wraps. -/
theorem applySwap_error {p : Pool} (hp : p.Sound) {inIsLo : Bool} {vIn vOut : Nat} (hv : vIn < 2 ^ 64)
    {rIn rOut : Nat} (hIn : rIn = if inIsLo then p.reserveA else p.reserveB)
    (hOut : rOut = if inIsLo then p.reserveB else p.reserveA) (hpos : 0 < vOut) (hlt : vOut < rOut)
    (hk : rIn * rOut ≤ (rIn + vIn) * (rOut - vOut)) {e : PoolError} (herr : applySwap p inIsLo vIn vOut = .error e) :
    e = .valueOutOfRange := by
  have hA := hp.reserveA
  have hB := hp.reserveB
  have hkPre := mul_lt_of_u64 hA hB
  have hsum : rIn + vIn < 2 ^ 65 := by
    rw [hIn]
    split <;> omega
  have hkPost : (rIn + vIn) * (rOut - vOut) < 2 ^ 65 * 2 ^ 64 := by
    refine Nat.mul_lt_mul'' hsum (lt_of_le_of_lt (Nat.sub_le _ _) ?_)
    rw [hOut]
    split <;> omega
  simp only [applySwap, except_bind_eq_error, refuse_eq_error, refuse_eq_ok] at herr
  cases inIsLo with
  | true =>
    simp only [if_true] at hIn hOut herr
    subst hIn hOut
    rw [wrapAdd_eq (by omega), wrapSub_eq (le_of_lt hlt) (by omega), wrapMul_eq (by omega), wrapMul_eq (by omega)] at herr
    rcases herr with ⟨hbad, -⟩ | ⟨_, -, ⟨hbad, -⟩ | ⟨_, -, ⟨-, rfl⟩ | ⟨_, -, herr⟩⟩⟩
    · omega
    · omega
    · rfl
    · cases herr
  | false =>
    simp only [Bool.false_eq_true, if_false] at hIn hOut herr
    subst hIn hOut
    have hpre := Nat.mul_comm p.reserveA p.reserveB
    have hpost := Nat.mul_comm (p.reserveA - vOut) (p.reserveB + vIn)
    rw [wrapAdd_eq (by omega), wrapSub_eq (le_of_lt hlt) (by omega), wrapMul_eq (by omega), wrapMul_eq (by omega)] at herr
    rcases herr with ⟨hbad, -⟩ | ⟨_, -, ⟨hbad, -⟩ | ⟨_, -, ⟨-, rfl⟩ | ⟨_, -, herr⟩⟩⟩
    · omega
    · omega
    · rfl
    · cases herr

/-- **A swap quote passes the pool's check.** -/
theorem applySwap_of_quote {p : Pool} (hp : p.Sound) {inIsLo : Bool} {vIn vOut : Nat} (hv : vIn < 2 ^ 64)
    (hok : ammOut (if inIsLo then p.reserveA else p.reserveB) (if inIsLo then p.reserveB else p.reserveA) vIn p.feeBps =
      .ok vOut) {e : PoolError} (herr : applySwap p inIsLo vIn vOut = .error e) : ¬ RejectsQuote e := by
  have hIn : (if inIsLo then p.reserveA else p.reserveB) < 2 ^ 64 := by
    split
    · exact hp.reserveA
    · exact hp.reserveB
  have hOut : (if inIsLo then p.reserveB else p.reserveA) < 2 ^ 64 := by
    split
    · exact hp.reserveB
    · exact hp.reserveA
  obtain ⟨hpos, hlt, hk⟩ := ammOut_ok hIn hOut hv hp.fee hok
  obtain rfl := applySwap_error hp hv rfl rfl hpos hlt hk herr
  exact id

/-- The ceiling of a quotient is the least that covers it. -/
theorem ceilDiv_ok {x y v : Nat} (hx : x + y < 2 ^ 256) (hok : ceilDiv x y = .ok v) :
    x ≤ v * y ∧ ∀ w, x ≤ w * y → v ≤ w := by
  simp only [ceilDiv, except_bind_eq_ok, refuse_eq_ok, except_pure_eq_ok] at hok
  obtain ⟨_, hy, rfl⟩ := hok
  have hy0 : 0 < y := Nat.pos_of_ne_zero hy
  rw [wrapAdd_eq hx, wrapSub_eq (by omega) hx]
  refine ⟨?_, ?_⟩
  · have h := Nat.lt_div_mul_add (a := x + y - 1) hy0
    omega
  · intro w hw
    have hlt : (x + y - 1) / y < w + 1 := by
      rw [Nat.div_lt_iff_lt_mul hy0, Nat.add_mul, Nat.one_mul]
      omega
    omega

/-- **A liquidity quote passes the pool's check**, on the pair it was made from or, where that has no shares, on any
pair without shares. -/
theorem applyAddLiquidity_of_quote {p q : Pool} (hp : p.Sound) {vLo vHi minted addLo addHi : Nat} (hLo : vLo < 2 ^ 64)
    (hHi : vHi < 2 ^ 64) (hpair : if p.init = true ∧ p.totalShares ≠ 0 then q = p else q.totalShares = 0)
    (hok : quoteAdd p vLo vHi = .ok (minted, addLo, addHi)) {e : PoolError}
    (herr : applyAddLiquidity q vLo vHi minted addLo addHi = .error e) : ¬ RejectsQuote e := by
  unfold quoteAdd at hok
  by_cases hlive : p.init = true ∧ p.totalShares ≠ 0
  · rw [if_pos hlive] at hpair hok
    subst hpair
    simp only [checkedDiv, except_bind_eq_ok, need_eq_ok, uint256_eq_some, refuse_eq_ok, except_pure_eq_ok,
      Prod.mk.injEq] at hok
    obtain ⟨_, ⟨-, rfl⟩, sA, ⟨_, hA0, rfl⟩, _, ⟨-, rfl⟩, sB, ⟨_, hB0, rfl⟩, _, hm0, _, ⟨hmA, rfl⟩, _, hcA, _, ⟨hmB, rfl⟩,
      _, hcB, rfl, rfl, rfl⟩ := hok
    -- the shares are at most each leg's part, so the legs cover them and are covered
    generalize hm : (if vLo * q.totalShares / q.reserveA < vHi * q.totalShares / q.reserveB then
      vLo * q.totalShares / q.reserveA else vHi * q.totalShares / q.reserveB) = minted at *
    have hmLo : minted ≤ vLo * q.totalShares / q.reserveA := by
      rw [← hm]
      split <;> omega
    have hmHi : minted ≤ vHi * q.totalShares / q.reserveB := by
      rw [← hm]
      split <;> omega
    have hcovLo : minted * q.reserveA ≤ vLo * q.totalShares := (Nat.le_div_iff_mul_le (Nat.pos_of_ne_zero hA0)).1 hmLo
    have hcovHi : minted * q.reserveB ≤ vHi * q.totalShares := (Nat.le_div_iff_mul_le (Nat.pos_of_ne_zero hB0)).1 hmHi
    have hS := hp.shares
    have hprodLo := mul_lt_of_u64 hLo hS
    have hprodHi := mul_lt_of_u64 hHi hS
    obtain ⟨hbackA, hleastA⟩ := ceilDiv_ok (by omega) hcA
    obtain ⟨hbackB, hleastB⟩ := ceilDiv_ok (by omega) hcB
    have haddLo := hleastA vLo hcovLo
    have haddHi := hleastB vHi hcovHi
    rw [applyAddLiquidity, if_pos hlive.2] at herr
    simp only [except_bind_eq_error, need_eq_error, need_eq_ok, uint256_eq_some, refuse_eq_error] at herr
    rcases herr with ⟨hbad, -⟩ | ⟨_, -, ⟨-, rfl⟩ | ⟨_, ⟨-, rfl⟩, ⟨-, rfl⟩ | ⟨_, ⟨-, rfl⟩, ⟨hbad, -⟩ | ⟨_, -,
      ⟨-, rfl⟩ | ⟨_, ⟨-, rfl⟩, ⟨-, rfl⟩ | ⟨_, ⟨-, rfl⟩, ⟨hbad, -⟩ | ⟨_, -, ⟨-, rfl⟩ | ⟨_, -, ⟨-, rfl⟩ | ⟨_, -, ⟨-, rfl⟩ |
      ⟨_, -, ⟨-, rfl⟩ | ⟨_, -, herr⟩⟩⟩⟩⟩⟩⟩⟩⟩⟩⟩
    · omega
    · exact id
    · exact id
    · omega
    · exact id
    · exact id
    · omega
    · exact id
    · exact id
    · exact id
    · exact id
    · cases herr
  · rw [if_neg hlive] at hpair hok
    simp only [except_bind_eq_ok, need_eq_ok, uint256_eq_some, refuse_eq_ok, except_pure_eq_ok, Prod.mk.injEq] at hok
    obtain ⟨_, ⟨-, rfl⟩, _, hsqrt, _, hmin, rfl, rfl, rfl⟩ := hok
    have hk := mul_lt_of_u64 hLo hHi
    rw [isqrt_eq (by omega), Option.some.injEq] at hsqrt
    have hsq : minted * minted ≤ addLo * addHi := hsqrt ▸ Nat.sqrt_le (addLo * addHi)
    rw [applyAddLiquidity, if_neg (not_not.2 hpair)] at herr
    simp only [except_bind_eq_error, need_eq_error, need_eq_ok, uint256_eq_some, refuse_eq_error] at herr
    rcases herr with ⟨-, rfl⟩ | ⟨_, ⟨-, rfl⟩, ⟨-, rfl⟩ | ⟨_, ⟨-, rfl⟩, ⟨hbad, -⟩ | ⟨_, -, herr⟩⟩⟩
    · exact id
    · exact id
    · omega
    · cases herr

/-! ## The other errors of the applicators -/

/-- An error other than the rejection of a quote. -/
def Fine (e : PoolError) : Prop := ¬ RejectsQuote e

section Fine

variable {D : Deployment} {env : Env}

theorem callOut_fine (c : Out) : Throws Fine (callOut D env c) := by
  refine .bind (.forEach fun r => ?_) fun _ => .check id
  intro s e t herr
  cases r with
  | createPair => cases herr
  | advanceReflectionAncestry => cases herr

theorem moveInUnderlying_fine {a : AssetStore} {assetId : Word} {amount : Nat} :
    Throws Fine (moveInUnderlying D env a assetId amount) := by
  have hadd : Throws Fine (addEscrow assetId amount) := .bind .get fun _ => .bind (.orThrow id) fun _ => .modify
  refine .ite (callOut_fine _) (.ite hadd ?_)
  exact .bind (callOut_fine _) fun _ => .bind (.orThrow id) fun _ => .bind (.check id) fun _ => hadd

theorem ingestPublic_fine {assetId : Word} {amount : Nat} : Throws Fine (ingestPublic D env assetId amount) := by
  refine .bind .get fun _ => .bind (.check id) fun _ => .bind ?_ fun _ => .bind moveInUnderlying_fine fun _ => .pure
  exact .bind (.check id) fun _ => .bind (.check id) fun _ => .bind (.check id) fun _ => .pure

theorem payout_fine {assetId : Word} {recipient : Address} {value : Nat} :
    Throws Fine (payout D env assetId recipient value) := by
  refine .ite .pure (.bind .get fun _ => .bind (.check id) fun _ => .bind (.check id) fun _ => ?_)
  refine .bind (.orThrow id) fun _ => .bind (.ite (callOut_fine _) ?_) fun _ => .pure
  exact .bind .get fun _ => .bind (.check id) fun _ => .bind .modify fun _ => callOut_fine _

theorem refund_fine {assetId : Word} {recipient : Address} {value : Nat} :
    Throws Fine (refund D env assetId recipient value) := .onlyIf (.bind payout_fine fun _ => .pure)

theorem creditShares_fine {id : Word} {owner : Address} {shares : Nat} : Throws Fine (creditShares id owner shares) :=
  .bind .get fun _ => .bind (.orThrow fun h => h) fun _ => .modify

theorem ensurePair_fine {assetA assetB rcptX : Word} {feeBps rcptPrefix protocolFeeBps : Nat} {b : Bool} :
    Throws Fine (ensurePair D assetA assetB feeBps rcptPrefix rcptX protocolFeeBps b) := by
  refine .bind .get fun _ => .bind (.check id) fun _ => .bind (.check id) fun _ => .bind (.check id) fun _ => ?_
  exact .ite (.bind (.check id) fun _ => .pure) (.bind .modify fun _ => .pure)

end Fine

/-! ## What the applicators read -/

/-- The registry is as it was. -/
def SameRegistry (s t : Storage) : Prop := t.assets = s.assets ∧ t.localAssetOf = s.localAssetOf

instance : IsPreorder Storage SameRegistry where
  refl _ := ⟨rfl, rfl⟩
  trans _ _ _ h h' := ⟨h'.1.trans h.1, h'.2.trans h.2⟩

section Registry

variable {D : Deployment} {env : Env}

theorem ensurePair_registry {assetA assetB rcptX : Word} {feeBps rcptPrefix protocolFeeBps : Nat} {b : Bool} :
    Keeps SameRegistry (ensurePair D assetA assetB feeBps rcptPrefix rcptX protocolFeeBps b) := by
  refine .bind .get fun _ => .bind .check fun _ => .bind .check fun _ => .bind .check fun _ => ?_
  exact .ite (.bind .check fun _ => .pure) (.bind (.modify fun _ => ⟨rfl, rfl⟩) fun _ => .pure)

theorem callOut_registry (c : Out) : Keeps SameRegistry (callOut D env c) := by
  refine .bind (.forEach fun r _ => ?_) fun _ => .check
  cases r with
  | createPair =>
    rintro s ⟨⟩ t ⟨⟩
    exact call_keeps (I := SameRegistry s) (refl_of SameRegistry s) fun _ _ hok => ensurePair_registry hok
  | advanceReflectionAncestry =>
    rintro s ⟨⟩ t ⟨⟩
    have hadvance : Keeps SameRegistry (advanceReflectionAncestry D env) :=
      .bind .orThrow fun _ => .zoom fun _ _ => ⟨rfl, rfl⟩
    exact call_keeps (I := SameRegistry s) (refl_of SameRegistry s) fun _ _ hok => hadvance hok

theorem ingestPublic_registry {assetId : Word} {amount : Nat} :
    Keeps SameRegistry (ingestPublic D env assetId amount) := by
  have hadd : ∀ id n, Keeps SameRegistry (addEscrow id n) := fun id n =>
    .bind .get fun _ => .bind .orThrow fun _ => .modify fun _ => ⟨rfl, rfl⟩
  refine .bind .get fun _ => .bind .check fun _ => .bind ?_ fun _ => .bind ?_ fun _ => .pure
  · exact .bind .check fun _ => .bind .check fun _ => .bind .check fun _ => .pure
  · refine .ite (callOut_registry _) (.ite (hadd _ _) ?_)
    exact .bind (callOut_registry _) fun _ => .bind .orThrow fun _ => .bind .check fun _ => hadd _ _

/-- A registered asset is its own entry. -/
theorem rAsset_of_registered {s : Storage} {assetId : Word} (h : (s.assets assetId).registered = true) :
    rAsset s assetId = s.assets assetId := by
  rw [rAsset, resolveAsset, if_pos h]

theorem ingestPublic_value {assetId : Word} {amount v : Nat} {s t : Storage}
    (hok : ingestPublic D env assetId amount s = .ok v t) : v = amount / (rAsset s assetId).unitScale := by
  simp only [ingestPublic, amountToValue, ckU64, bind_eq_ok, get_eq_ok, check_eq_ok, pure_eq_ok] at hok
  obtain ⟨_, _, ⟨rfl, rfl⟩, _, _, ⟨-, rfl⟩, _, _, ⟨_, _, ⟨-, rfl⟩, _, _, ⟨-, rfl⟩, _, _, ⟨-, rfl⟩, rfl, rfl⟩, _, _, -,
    rfl, -⟩ := hok
  rfl

end Registry

/-- A pair that exists keeps its slot. -/
def SlotKept (id : Word) (s t : Storage) : Prop := (s.pools id).init = true → t.pools id = s.pools id

theorem slotKept_of_pools {id : Word} {s t : Storage} (h : t.pools = s.pools) : SlotKept id s t := fun _ => by rw [h]

theorem blind_slotKept (id : Word) : Blind (SlotKept id) where
  preorder := {
    refl := fun _ _ => rfl
    trans := fun s t u h h' hs => by
      have ht := h hs
      rw [h' (by rwa [ht]), ht] }
  pair s id' lo hi feeBps hinit _ := by
    intro hs
    show Function.update s.pools id' _ id = s.pools id
    by_cases hid : id = id'
    · rw [hid, hinit] at hs
      cases hs
    · rw [Function.update_of_ne hid]
  reflection _ _ := slotKept_of_pools rfl
  registry _ _ _ := slotKept_of_pools rfl
  release _ _ _ := slotKept_of_pools rfl
  shares _ _ := slotKept_of_pools rfl
  farms _ _ _ := slotKept_of_pools rfl
  positions _ _ _ := slotKept_of_pools rfl
  harvests _ _ := slotKept_of_pools rfl
  lockTree _ _ := slotKept_of_pools rfl
  evmCount _ _ := slotKept_of_pools rfl

/-! ## The applicators on a quote -/

variable {D : Deployment}

theorem ingestPublic_slot {env : Env} {assetId id : Word} {amount v : Nat} {s t : Storage}
    (hok : ingestPublic D env assetId amount s = .ok v t) (hinit : (s.pools id).init = true) : t.pools id = s.pools id :=
  (blind_slotKept id).ingestPublic (fun _ _ => slotKept_of_pools rfl) hok hinit

theorem notRetired_state {s t : Storage} {u : Unit} (hok : notRetired s = .ok u t) : t = s := by
  simp only [notRetired, bind_eq_ok, get_eq_ok, check_eq_ok] at hok
  obtain ⟨_, _, ⟨rfl, rfl⟩, -, rfl⟩ := hok
  rfl

/-- `sortPair` on the in and out legs. -/
def inIsLo (assetIn assetOut : Word) : Bool := assetIn = (sortPair assetIn assetOut).1

theorem applyPublicSwap_fine {env : Env} {assetIn assetOut : Word} {feeBps amountIn vOut : Nat} {recipient : Address}
    {s t : Storage} {e : PoolError} {p : Pool}
    (hp : p = s.pools (poolId D (sortPair assetIn assetOut).1 (sortPair assetIn assetOut).2 feeBps)) (hsound : p.Sound)
    (hregistered : (s.assets assetIn).registered = true) (hlt : amountIn / (s.assets assetIn).unitScale < 2 ^ 64)
    (hquote : ammOut (if inIsLo assetIn assetOut then p.reserveA else p.reserveB)
      (if inIsLo assetIn assetOut then p.reserveB else p.reserveA) (amountIn / (s.assets assetIn).unitScale) p.feeBps =
        .ok vOut)
    (herr : applyPublicSwap D env assetIn assetOut feeBps amountIn vOut recipient s = .err e t) : Fine e := by
  have hamm : Throws Fine (onlyPublicAmm D env) := .check id
  have hactive : Throws Fine notRetired := .bind .get fun _ => .check id
  refine throws_bind_of herr hamm fun _ s₁ h₁ herr₁ => ?_
  obtain ⟨-, rfl⟩ := check_eq_ok.1 h₁
  refine throws_bind_of herr₁ hactive fun _ s₂ h₂ herr₂ => ?_
  obtain rfl := notRetired_state h₂
  refine throws_bind_of herr₂ .get fun _ s₃ h₃ herr₃ => ?_
  obtain ⟨rfl, rfl⟩ := get_eq_ok.1 h₃
  refine throws_bind_of herr₃ (.check id) fun _ s₄ h₄ herr₄ => ?_
  obtain ⟨hinit, rfl⟩ := check_eq_ok.1 h₄
  refine throws_bind_of herr₄ (.check id) fun _ s₅ h₅ herr₅ => ?_
  obtain ⟨-, rfl⟩ := check_eq_ok.1 h₅
  refine throws_bind_of herr₅ ingestPublic_fine fun vIn s₆ h₆ herr₆ => ?_
  refine throws_bind_of herr₆ .get fun _ s₇ h₇ herr₇ => ?_
  obtain ⟨rfl, rfl⟩ := get_eq_ok.1 h₇
  -- the ingest keeps the pair and values the input as the router did
  have hslot := ingestPublic_slot h₆ (by simpa using hinit)
  have hvIn : vIn = amountIn / (s₅.assets assetIn).unitScale := by
    rw [← rAsset_of_registered hregistered]
    exact ingestPublic_value h₆
  rw [← hvIn] at hlt hquote
  rcases bind_eq_err.1 herr₇ with hreject | ⟨q, s₈, -, herr₈⟩
  · obtain ⟨hreject, -⟩ := ofExcept_eq_err.1 hreject
    rw [hslot, ← hp] at hreject
    exact applySwap_of_quote hsound hlt hquote hreject
  · exact Throws.bind .modify (fun _ => payout_fine) herr₈

/-- The pair after `ensurePair`: as it was, or new and without shares. -/
theorem ensurePair_slot {assetLo assetHi id : Word} {feeBps : Nat} {s t : Storage} (hlt : assetLo < assetHi)
    (hok : ensurePair D assetLo assetHi feeBps 0 0 0 false s = .ok id t) :
    id = poolId D assetLo assetHi feeBps ∧
      if (s.pools id).init = true ∧ (s.pools id).totalShares ≠ 0 then t.pools id = s.pools id
      else (t.pools id).totalShares = 0 := by
  have hid : pairId D assetLo assetHi feeBps 0 0 0 = poolId D assetLo assetHi feeBps := by
    simp [pairId, sortPair, hlt]
  simp only [ensurePair, bind_eq_ok, get_eq_ok, check_eq_ok, ite_eq_ok, pure_eq_ok, modify_eq_ok] at hok
  obtain ⟨_, _, ⟨rfl, rfl⟩, _, _, ⟨-, rfl⟩, _, _, ⟨-, rfl⟩, _, _, ⟨-, rfl⟩,
    ⟨hinit, _, _, ⟨-, rfl⟩, rfl, rfl⟩ | ⟨hinit, _, _, rfl, rfl, rfl⟩⟩ := hok
  · refine ⟨hid, ?_⟩
    split
    · rfl
    · rename_i hlive
      by_contra hS
      exact hlive ⟨hinit, hS⟩
  · refine ⟨hid, ?_⟩
    rw [if_neg fun h => hinit h.1]
    simp

theorem applyPublicAddLiquidity_fine {env : Env} {assetLo assetHi : Word} {feeBps amtLo amtHi minted addLo addHi : Nat}
    {recipient : Address} {s t : Storage} {e : PoolError} {p : Pool} (hp : p = s.pools (poolId D assetLo assetHi feeBps))
    (hsound : p.Sound) (hregLo : (s.assets assetLo).registered = true) (hregHi : (s.assets assetHi).registered = true)
    (hLo : amtLo / (s.assets assetLo).unitScale < 2 ^ 64) (hHi : amtHi / (s.assets assetHi).unitScale < 2 ^ 64)
    (hquote : quoteAdd p (amtLo / (s.assets assetLo).unitScale) (amtHi / (s.assets assetHi).unitScale) =
      .ok (minted, addLo, addHi))
    (herr : applyPublicAddLiquidity D env assetLo assetHi feeBps amtLo amtHi minted addLo addHi recipient s = .err e t) :
    Fine e := by
  have hamm : Throws Fine (onlyPublicAmm D env) := .check id
  have hactive : Throws Fine notRetired := .bind .get fun _ => .check id
  refine throws_bind_of herr hamm fun _ s₁ h₁ herr₁ => ?_
  obtain ⟨-, rfl⟩ := check_eq_ok.1 h₁
  refine throws_bind_of herr₁ hactive fun _ s₂ h₂ herr₂ => ?_
  obtain rfl := notRetired_state h₂
  refine throws_bind_of herr₂ (.check id) fun _ s₃ h₃ herr₃ => ?_
  obtain ⟨hsorted, rfl⟩ := check_eq_ok.1 h₃
  refine throws_bind_of herr₃ ensurePair_fine fun pair s₄ h₄ herr₄ => ?_
  refine throws_bind_of herr₄ .get fun _ s₅ h₅ herr₅ => ?_
  obtain ⟨rfl, rfl⟩ := get_eq_ok.1 h₅
  refine throws_bind_of herr₅ (.orThrow id) fun _ s₆ h₆ herr₆ => ?_
  obtain ⟨-, rfl⟩ := orThrow_eq_ok.1 h₆
  refine throws_bind_of herr₆ (.check id) fun _ s₇ h₇ herr₇ => ?_
  obtain ⟨-, rfl⟩ := check_eq_ok.1 h₇
  refine throws_bind_of herr₇ ingestPublic_fine fun vLo s₈ h₈ herr₈ => ?_
  refine throws_bind_of herr₈ ingestPublic_fine fun vHi s₉ h₉ herr₉ => ?_
  refine throws_bind_of herr₉ .get fun _ s₁₀ h₁₀ herr₁₀ => ?_
  obtain ⟨rfl, rfl⟩ := get_eq_ok.1 h₁₀
  -- both ingests keep the pair and value the inputs as the router did
  obtain ⟨rfl, hpair⟩ := ensurePair_slot (not_le.1 hsorted) h₄
  have hslot₈ := ingestPublic_slot h₈ (ensurePair_init h₄)
  have hslot₉ := ingestPublic_slot h₉ (by rw [hslot₈]; exact ensurePair_init h₄)
  rw [← hp, ← hslot₈, ← hslot₉] at hpair
  have hreg₇ := ensurePair_registry h₄
  have hreg₈ := trans_of SameRegistry hreg₇ (ingestPublic_registry h₈)
  have hvLo : vLo = amtLo / (s₃.assets assetLo).unitScale := by
    rw [ingestPublic_value h₈, rAsset_of_registered (by rw [hreg₇.1]; exact hregLo), hreg₇.1]
  have hvHi : vHi = amtHi / (s₃.assets assetHi).unitScale := by
    rw [ingestPublic_value h₉, rAsset_of_registered (by rw [hreg₈.1]; exact hregHi), hreg₈.1]
  rw [← hvLo, ← hvHi] at hquote
  rw [← hvLo] at hLo
  rw [← hvHi] at hHi
  rcases bind_eq_err.1 herr₁₀ with hreject | ⟨added, s₁₁, -, herr₁₁⟩
  · obtain ⟨hreject, -⟩ := ofExcept_eq_err.1 hreject
    exact applyAddLiquidity_of_quote hsound hLo hHi hpair hquote hreject
  · exact Throws.bind .modify (fun _ => .bind refund_fine fun _ => .bind refund_fine fun _ =>
      .bind creditShares_fine fun _ => .pure) herr₁₁

/-! ## The router -/

variable {env : RouterEnv}

/-- The calls that tokens make while they are pulled from leave the pair and the two registry entries alone. -/
def RouterEnv.Quiet (D : Deployment) (env : RouterEnv) (id assetA assetB : Word) : Prop :=
  ∀ token s, (run D s (env.during token)).pools id = s.pools id ∧
    (run D s (env.during token)).assets assetA = s.assets assetA ∧
    (run D s (env.during token)).assets assetB = s.assets assetB

theorem toValue_ok {amount unitScale v : Nat} (hok : toValue amount unitScale = .ok v) :
    v = amount / unitScale ∧ v < 2 ^ 64 := by
  simp only [toValue, except_bind_eq_ok, refuse_eq_ok, except_pure_eq_ok] at hok
  obtain ⟨_, -, _, hle, rfl⟩ := hok
  exact ⟨rfl, by omega⟩

/-- What a pull gives, and what it leaves to the applicator. -/
theorem pullForPool_ok {id assetA assetB assetId : Word} {amount v : Nat} {s t : Storage} (hquiet : env.Quiet D id assetA assetB)
    (hok : pullForPool D env assetId amount s = .ok v t) :
    (s.assets assetId).registered = true ∧ v = amount / (s.assets assetId).unitScale ∧ v < 2 ^ 64 ∧
      t.pools id = s.pools id ∧ t.assets assetA = s.assets assetA ∧ t.assets assetB = s.assets assetB := by
  simp only [pullForPool, pull, bind_eq_ok, get_eq_ok, check_eq_ok, ofExcept_eq_ok, onlyIf_eq_ok, modify_eq_ok,
    pure_eq_ok] at hok
  obtain ⟨_, _, ⟨rfl, rfl⟩, _, _, ⟨hreg, rfl⟩, _, _, ⟨hv, rfl⟩, _, _, hpull, rfl, rfl⟩ := hok
  obtain ⟨hvalue, hlt⟩ := toValue_ok hv
  refine ⟨by simpa using hreg, hvalue, hlt, ?_⟩
  rcases hpull with ⟨-, _, _, rfl, -, rfl⟩ | ⟨-, rfl⟩
  · exact hquiet _ _
  · exact ⟨rfl, rfl, rfl⟩

/-- Not the pool's rejection of a quote. -/
def Passes (err : RouterError) : Prop := ∀ e, err = .pool e → Fine e

theorem passes_of_ne {err : RouterError} (h : ∀ e, err ≠ .pool e) : Passes err := fun e he => absurd he (h e)

theorem toValue_passes {amount unitScale : Nat} : Refuses Passes (toValue amount unitScale) :=
  .bind (.refuse (passes_of_ne (by simp))) fun _ => .bind (.refuse (passes_of_ne (by simp))) fun _ => .pure

theorem pullForPool_passes {assetId : Word} {amount : Nat} : Throws Passes (pullForPool D env assetId amount) := by
  refine .bind .get fun s => .bind (.check (passes_of_ne (by simp))) fun _ => .bind (.ofExcept toValue_passes) fun _ => ?_
  exact .bind (.onlyIf (.bind .modify fun _ => .check (passes_of_ne (by simp)))) fun _ => .pure

theorem ammOut_passes {rIn rOut vIn feeBps : Nat} : Refuses Passes (ammOut rIn rOut vIn feeBps) :=
  .bind (.refuse (passes_of_ne (by simp))) fun _ => .bind (.refuse (passes_of_ne (by simp))) fun _ => .pure

theorem quoteAdd_passes {p : Pool} {vLo vHi : Nat} : Refuses Passes (quoteAdd p vLo vHi) := by
  have hown : Passes .arithmetic := passes_of_ne (by simp)
  have hshort : Passes .insufficientLiquidity := passes_of_ne (by simp)
  have hdiv : ∀ x y, Refuses Passes (checkedDiv x y) := fun _ _ => .bind (.refuse hown) fun _ => .pure
  have hceil : ∀ x y, Refuses Passes (ceilDiv x y) := fun _ _ => .bind (.refuse hown) fun _ => .pure
  refine .ite ?_ (.bind (.need hown) fun _ => .bind (.need hown) fun _ => .bind (.refuse hshort) fun _ => .pure)
  refine .bind (.need hown) fun _ => .bind (hdiv _ _) fun _ => .bind (.need hown) fun _ => .bind (hdiv _ _) fun _ => ?_
  refine .bind (.refuse hshort) fun _ => .bind (.need hown) fun _ => .bind (hceil _ _) fun _ => ?_
  exact .bind (.need hown) fun _ => .bind (hceil _ _) fun _ => .pure

theorem mapErr_passes {α : Type} {m : Prog Storage PoolError α} {s t : Storage} {err : RouterError}
    (h : ∀ e, m s = .err e t → Fine e) (herr : mapErr RouterError.pool m s = .err err t) : Passes err := by
  obtain ⟨e, hm, rfl⟩ := mapErr_eq_err.1 herr
  rintro e' ⟨⟩
  exact h e hm

/-- **The pool does not reject the router's swap quote** for a sound pair. -/
theorem swapPublic_passes {assetIn assetOut : Word} {feeBps amountIn minAmountOut deadline : Nat} {recipient : Address}
    {s t : Storage} {err : RouterError}
    (hsound : (s.pools (poolId D (sortPair assetIn assetOut).1 (sortPair assetIn assetOut).2 feeBps)).Sound)
    (hquiet : env.Quiet D (poolId D (sortPair assetIn assetOut).1 (sortPair assetIn assetOut).2 feeBps) assetIn assetOut)
    (herr : swapPublic D env assetIn assetOut feeBps amountIn minAmountOut deadline recipient s = .err err t) :
    Passes err := by
  have hdeadline : Throws Passes (checkDeadline env deadline) := .check (passes_of_ne (by simp))
  have hrecipient : Throws Passes (checkRecipient D env recipient) := .check (passes_of_ne (by simp))
  refine throws_bind_of herr hdeadline fun _ s₁ h₁ herr₁ => ?_
  obtain ⟨-, rfl⟩ := check_eq_ok.1 h₁
  refine throws_bind_of herr₁ hrecipient fun _ s₂ h₂ herr₂ => ?_
  obtain ⟨-, rfl⟩ := check_eq_ok.1 h₂
  refine throws_bind_of herr₂ (.check (passes_of_ne (by simp))) fun _ s₃ h₃ herr₃ => ?_
  obtain ⟨-, rfl⟩ := check_eq_ok.1 h₃
  refine throws_bind_of herr₃ .get fun _ s₄ h₄ herr₄ => ?_
  obtain ⟨rfl, rfl⟩ := get_eq_ok.1 h₄
  refine throws_bind_of herr₄ (.check (passes_of_ne (by simp))) fun _ s₅ h₅ herr₅ => ?_
  obtain ⟨-, rfl⟩ := check_eq_ok.1 h₅
  refine throws_bind_of herr₅ pullForPool_passes fun vIn s₆ h₆ herr₆ => ?_
  obtain ⟨hreg, hvIn, hlt, hslot, hasset, -⟩ := pullForPool_ok hquiet h₆
  refine throws_bind_of herr₆ (.ofExcept ammOut_passes) fun vOut s₇ h₇ herr₇ => ?_
  obtain ⟨hquote, rfl⟩ := ofExcept_eq_ok.1 h₇
  rcases bind_eq_err.1 herr₇ with hpool | ⟨_, s₈, -, herr₈⟩
  · refine mapErr_passes (fun e herr => ?_) hpool
    refine applyPublicSwap_fine rfl (by rwa [hslot]) (by rwa [hasset]) (by rwa [hasset, ← hvIn]) ?_ herr
    rw [hslot, hasset, ← hvIn]
    by_cases hlo : assetIn = (sortPair assetIn assetOut).1
    · simpa only [inIsLo, if_pos hlo, decide_true, if_true, ← hlo] using hquote
    · simpa only [inIsLo, if_neg hlo, decide_eq_true_eq] using hquote
  · exact Throws.bind (.check (passes_of_ne (by simp))) (fun _ => .pure) herr₈

/-- **The pool does not reject the router's liquidity quote**, the founding one included. -/
theorem createPairAndAddLiquidityPublic_passes {assetA assetB : Word}
    {feeBps amountA amountB minSharesOut deadline : Nat} {recipient : Address} {s t : Storage} {err : RouterError}
    {legs : Word × Word × Nat × Nat} (hlegs : legs = sortLegs assetA assetB amountA amountB)
    (hsound : (s.pools (poolId D legs.1 legs.2.1 feeBps)).Sound)
    (hquiet : env.Quiet D (poolId D legs.1 legs.2.1 feeBps) legs.1 legs.2.1)
    (herr : createPairAndAddLiquidityPublic D env assetA assetB feeBps amountA amountB minSharesOut deadline recipient s =
      .err err t) : Passes err := by
  have hdeadline : Throws Passes (checkDeadline env deadline) := .check (passes_of_ne (by simp))
  have hrecipient : Throws Passes (checkRecipient D env recipient) := .check (passes_of_ne (by simp))
  subst hlegs
  refine throws_bind_of herr hdeadline fun _ s₁ h₁ herr₁ => ?_
  obtain ⟨-, rfl⟩ := check_eq_ok.1 h₁
  refine throws_bind_of herr₁ hrecipient fun _ s₂ h₂ herr₂ => ?_
  obtain ⟨-, rfl⟩ := check_eq_ok.1 h₂
  refine throws_bind_of herr₂ (.check (passes_of_ne (by simp))) fun _ s₃ h₃ herr₃ => ?_
  obtain ⟨-, rfl⟩ := check_eq_ok.1 h₃
  refine throws_bind_of herr₃ .get fun _ s₄ h₄ herr₄ => ?_
  obtain ⟨rfl, rfl⟩ := get_eq_ok.1 h₄
  refine throws_bind_of herr₄ pullForPool_passes fun vLo s₅ h₅ herr₅ => ?_
  obtain ⟨hregLo, hvLo, hLo, hslot₅, hlo₅, hhi₅⟩ := pullForPool_ok hquiet h₅
  refine throws_bind_of herr₅ pullForPool_passes fun vHi s₆ h₆ herr₆ => ?_
  obtain ⟨hregHi, hvHi, hHi, hslot₆, hlo₆, hhi₆⟩ := pullForPool_ok hquiet h₆
  refine throws_bind_of herr₆ (.ofExcept quoteAdd_passes) fun q s₇ h₇ herr₇ => ?_
  obtain ⟨hquote, rfl⟩ := ofExcept_eq_ok.1 h₇
  rcases bind_eq_err.1 herr₇ with hpool | ⟨_, s₈, -, herr₈⟩
  · refine mapErr_passes (fun e herr => ?_) hpool
    have hlo := hlo₆.trans hlo₅
    refine applyPublicAddLiquidity_fine rfl (by rwa [hslot₆, hslot₅]) (by rwa [hlo]) (by rwa [hhi₆])
      (by rwa [hlo, ← hvLo]) (by rwa [hhi₆, ← hvHi]) ?_ herr
    rw [hslot₆, hslot₅, hlo, hhi₆, ← hvLo, ← hvHi]
    exact hquote
  · exact Throws.bind (.check (passes_of_ne (by simp))) (fun _ => .pure) herr₈

def demoRouterEnv : RouterEnv where
  self := 7
  sender := 1
  value := 0
  timestamp := 0
  pulls _ _ _ := true
  during _ := []
  pool := demoEnv

theorem demoRouterEnv_quiet (id assetA assetB : Word) : demoRouterEnv.Quiet D id assetA assetB :=
  fun _ _ => ⟨rfl, rfl, rfl⟩

section Demo

variable {K : Keccak} {s : Storage} (hassets : s.assets = (demoMinted K).assets)
include hassets

theorem demo_pull {amount : Nat} (h0 : amount ≠ 0) (hlt : amount < 2 ^ 64) :
    pullForPool (demoDeployment K) demoRouterEnv legLo amount s = .ok amount s := by
  have hlo : s.assets legLo = ⟨true, tokenLo, true, 18, 1, 0⟩ := by
    rw [hassets]
    simp [demoMinted, legs_lt.ne]
  have hvalue : toValue amount 1 = .ok amount := by
    simp only [toValue, except_bind_eq_ok, refuse_eq_ok, except_pure_eq_ok, Nat.div_one, Nat.mod_one]
    exact ⟨(), by simp [h0], (), by omega, trivial⟩
  have htoken : tokenLo ≠ 0 := by decide
  simp [pullForPool, hlo, hvalue, pull, demoRouterEnv, run, htoken]

theorem demo_leg : rAsset s legLo = ⟨true, tokenLo, true, 18, 1, 0⟩ := by
  rw [rAsset_of_registered (by rw [hassets]; simp [demoMinted, legs_lt.ne]), hassets]
  simp [demoMinted, legs_lt.ne]

theorem demo_ingest {amount : Nat} (h0 : amount ≠ 0) (hlt : amount < 2 ^ 64) :
    ingestPublic (demoDeployment K) demoRouterEnv.toPool legLo amount s = .ok amount s := by
  simp [ingestPublic, demo_leg hassets, amountToValue, ckU64, h0, Nat.mod_one, moveInUnderlying, callOut, demoRouterEnv,
    RouterEnv.toPool, demoEnv]
  omega

section Swap

variable {p : Pool} {amount vOut minAmountOut : Nat} (hpool : s.pools (demoPair K) = p) (hinit : p.init = true)
  (h0 : amount ≠ 0) (hlt : amount < 2 ^ 64)
include hpool hinit h0 hlt

/-- The applicator up to its check. -/
theorem demo_applyPublicSwap (hs : s.successor = 0) :
    applyPublicSwap (demoDeployment K) demoRouterEnv.toPool legLo legHi 0 amount vOut 1 s =
      (ofExcept (applySwap p true amount vOut) >>= fun q => ConfidentialPool.setPool (demoPair K) q >>= fun _ =>
        payout (demoDeployment K) demoRouterEnv.toPool legHi 1 vOut) s := by
  have hid : poolId (demoDeployment K) legLo legHi 0 = demoPair K := rfl
  have htoken : tokenLo ≠ 0 := by decide
  have hamm : onlyPublicAmm (demoDeployment K) demoRouterEnv.toPool s = .ok () s := rfl
  have hactive : notRetired s = .ok () s := by simp [notRetired, hs]
  have hslot : s.pools (poolId (demoDeployment K) (sortPair legLo legHi).1 (sortPair legLo legHi).2 0) = p := by
    rw [sortPair_legs]
    exact hpool
  unfold applyPublicSwap
  rw [bind_of_ok hamm, bind_of_ok hactive]
  simp only [sortPair_legs, hid]
  rw [bind_of_ok (get_eq_ok.2 ⟨rfl, rfl⟩), bind_check_of (by simp [hslot, hinit]),
    bind_check_of (by simp [isNativeEth, demo_leg hassets, htoken, RouterEnv.toPool, demoRouterEnv]),
    bind_of_ok (demo_ingest hassets h0 hlt), bind_of_ok (get_eq_ok.2 ⟨rfl, rfl⟩), hpool]
  simp

/-- The router up to the applicator. -/
theorem demo_swapPublic (hquote : ammOut p.reserveA p.reserveB amount p.feeBps = .ok vOut) :
    swapPublic (demoDeployment K) demoRouterEnv legLo legHi 0 amount minAmountOut 0 1 s =
      (mapErr .pool (applyPublicSwap (demoDeployment K) demoRouterEnv.toPool legLo legHi 0 amount vOut 1) >>= fun amountOut =>
        check (amountOut < minAmountOut) .slippageExceeded >>= fun _ => pure amountOut) s := by
  have hid : poolId (demoDeployment K) legLo legHi 0 = demoPair K := rfl
  have hdeadline : checkDeadline demoRouterEnv 0 s = .ok () s := rfl
  have hrecipient : checkRecipient (demoDeployment K) demoRouterEnv 1 s = .ok () s := rfl
  have hslot : s.pools (poolId (demoDeployment K) (sortPair legLo legHi).1 (sortPair legLo legHi).2 0) = p := by
    rw [sortPair_legs]
    exact hpool
  unfold swapPublic
  rw [bind_of_ok hdeadline, bind_of_ok hrecipient, bind_check_of legs_lt.ne]
  simp only [sortPair_legs, hid]
  rw [bind_of_ok (get_eq_ok.2 ⟨rfl, rfl⟩), bind_check_of (by simp [hslot, hinit]),
    bind_of_ok (demo_pull hassets h0 hlt), hpool, bind_of_ok (ofExcept_eq_ok.2 ⟨by simpa using hquote, rfl⟩)]

end Swap

/-- On the reserves a wrapped guard leaves, the quote wraps too and the pool rejects it. -/
theorem demo_swap_rejected (hpool : s.pools (demoPair K) = demoReserves wrappedReserve 3000) (hs : s.successor = 0) :
    swapPublic (demoDeployment K) demoRouterEnv legLo legHi 0 2 0 0 1 s = .err (.pool .constantProductDecreased) s := by
  have hquote : ammOut wrappedReserve wrappedReserve 2 0 = .ok 1 := by
    simp only [ammOut, except_bind_eq_ok, refuse_eq_ok, except_pure_eq_ok]
    refine ⟨(), ?_, (), ?_, ?_⟩ <;> norm_num [wrappedReserve, wrapMul, wrapAdd, wrapSub]
  have hswap : applySwap (demoReserves wrappedReserve 3000) true 2 1 = .error .constantProductDecreased := by
    simp only [applySwap, except_bind_eq_error, refuse_eq_error, refuse_eq_ok, demoReserves, if_true]
    refine Or.inr ⟨(), ?_, Or.inl ⟨?_, trivial⟩⟩ <;> norm_num [wrappedReserve, wrapMul, wrapAdd, wrapSub]
  rw [demo_swapPublic hassets hpool rfl (by norm_num) (by norm_num) hquote]
  refine bind_eq_err.2 (Or.inl (mapErr_eq_err.2 ⟨_, ?_, rfl⟩))
  rw [demo_applyPublicSwap hassets hpool rfl (by norm_num) (by norm_num) hs, hswap]
  rfl

/-- On equal reserves of 2000 a swap of 100 gives 95. -/
theorem demo_swap (hpool : s.pools (demoPair K) = demoReserves 2000 2000) (hs : s.successor = 0) :
    ∃ t, swapPublic (demoDeployment K) demoRouterEnv legLo legHi 0 100 95 0 1 s = .ok 95 t := by
  have hquote : ammOut 2000 2000 100 0 = .ok 95 := by
    simp only [ammOut, except_bind_eq_ok, refuse_eq_ok, except_pure_eq_ok]
    refine ⟨(), ?_, (), ?_, ?_⟩ <;> norm_num [wrapMul, wrapAdd, wrapSub]
  have hswap : applySwap (demoReserves 2000 2000) true 100 95 = .ok ⟨true, legLo, legHi, 2100, 1905, 0, 2000⟩ := by
    simp only [applySwap, except_bind_eq_ok, refuse_eq_ok, except_pure_eq_ok, demoReserves, if_true]
    refine ⟨(), ?_, (), ?_, (), ?_, ?_⟩ <;> norm_num [wrapMul, wrapAdd, wrapSub]
  let t : Storage :=
    { s with pools := Function.update s.pools (demoPair K) ⟨true, legLo, legHi, 2100, 1905, 0, 2000⟩ }
  have hpay : payout (demoDeployment K) demoRouterEnv.toPool legHi 1 95 t = .ok 95 t :=
    demo_payout K (s := t) hassets (Or.inr rfl) (by norm_num) (by norm_num)
  refine ⟨t, ?_⟩
  rw [demo_swapPublic hassets hpool rfl (by norm_num) (by norm_num) hquote]
  refine bind_eq_ok.2 ⟨95, t, mapErr_eq_ok.2 ?_, bind_eq_ok.2 ⟨(), t, check_eq_ok.2 ⟨by norm_num, rfl⟩, rfl⟩⟩
  rw [demo_applyPublicSwap hassets hpool rfl (by norm_num) (by norm_num) hs, hswap]
  exact hpay

end Demo

theorem reachable_of_inRange {s : Storage} (hs : Reachable D Call.InRange s) : Reachable D (fun _ => True) s := by
  induction hs with
  | deployed h => exact .deployed h
  | call env c _ _ ih => exact ih.call env c trivial

end TacitPublicAmm

end Tacit
