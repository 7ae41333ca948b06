import Mathlib.Algebra.Order.Field.Rat
import Mathlib.Tactic.Positivity
import Mathlib.Tactic.Ring
import Mathlib.Tactic.NormNum
import Tacit.Pool.Frames
/-!
# The value of an LP share

Six paths write a pool's reserves: the shielded swap, add and remove of a batch, and the three public
applicators. `Pool.Sound` bounds what they write, `Pool.Grows` says that one step leaves a live pool live and
the reserves behind a share, `reserveA * reserveB / totalShares ^ 2`, no smaller. Each path is shown to keep
both, and from there every call and every history.

The public removal keeps them only when its guard does not wrap (`Call.InRange`).
-/
namespace Tacit

open Prog

namespace ConfidentialPool

/-- The bounds on what a pool slot can hold. -/
structure Pool.Sound (p : Pool) : Prop where
  fee : p.feeBps ≤ maxPoolFeeBps
  reserveA : p.reserveA < 2 ^ 64
  reserveB : p.reserveB < 2 ^ 64
  shares : p.totalShares < 2 ^ 64
  live : p.totalShares ≠ 0 → p.init = true ∧ minimumLiquidity ≤ p.totalShares ∧ 0 < p.reserveA ∧ 0 < p.reserveB

/-- The square of the reserves behind one share. -/
def Pool.shareValue (p : Pool) : ℚ := p.reserveA * p.reserveB / p.totalShares ^ 2

/-- A live pool stays live and its shares lose nothing. -/
structure Pool.Grows (p q : Pool) : Prop where
  init : p.init = true → q.init = true
  live : p.totalShares ≠ 0 → q.totalShares ≠ 0 ∧ p.shareValue ≤ q.shareValue

theorem Pool.Grows.refl (p : Pool) : p.Grows p := ⟨id, fun h => ⟨h, le_rfl⟩⟩

theorem Pool.Grows.trans {p q r : Pool} (h : p.Grows q) (h' : q.Grows r) : p.Grows r where
  init hp := h'.init (h.init hp)
  live hp := by
    obtain ⟨hq, hle⟩ := h.live hp
    obtain ⟨hr, hle'⟩ := h'.live hq
    exact ⟨hr, hle.trans hle'⟩

/-- Cross-multiplied, the comparison is about naturals. -/
theorem Pool.shareValue_le {p q : Pool} (hp : p.totalShares ≠ 0) (hq : q.totalShares ≠ 0)
    (h : p.reserveA * p.reserveB * q.totalShares ^ 2 ≤ q.reserveA * q.reserveB * p.totalShares ^ 2) :
    p.shareValue ≤ q.shareValue := by
  have hp0 : (0 : ℚ) < p.totalShares := by exact_mod_cast Nat.pos_of_ne_zero hp
  have hq0 : (0 : ℚ) < q.totalShares := by exact_mod_cast Nat.pos_of_ne_zero hq
  rw [shareValue, shareValue, div_le_div_iff₀ (by positivity) (by positivity)]
  exact_mod_cast h

/-- Legs that each keep their part of a share keep its value. -/
theorem Pool.shareValue_le_of_legs {p q : Pool} (hp : p.totalShares ≠ 0) (hq : q.totalShares ≠ 0)
    (hA : p.reserveA * q.totalShares ≤ q.reserveA * p.totalShares)
    (hB : p.reserveB * q.totalShares ≤ q.reserveB * p.totalShares) : p.shareValue ≤ q.shareValue := by
  refine shareValue_le hp hq ?_
  calc p.reserveA * p.reserveB * q.totalShares ^ 2
      = (p.reserveA * q.totalShares) * (p.reserveB * q.totalShares) := by ring
    _ ≤ (q.reserveA * p.totalShares) * (q.reserveB * p.totalShares) := Nat.mul_le_mul hA hB
    _ = q.reserveA * q.reserveB * p.totalShares ^ 2 := by ring

/-- A step from a sound pool. -/
def Pool.Keeps (p q : Pool) : Prop := p.Sound → q.Sound ∧ p.Grows q

/-- A pool without shares may be founded with any sound reserves. -/
theorem Pool.keeps_of_founding {p q : Pool} (hp : p.totalShares = 0) (hinit : p.init = true → q.init = true)
    (hq : p.Sound → q.Sound) : p.Keeps q := fun h => ⟨hq h, hinit, fun hne => absurd hp hne⟩

/-- A change that keeps both legs' part of a share. -/
theorem Pool.keeps_of_legs {p q : Pool} (hp : p.totalShares ≠ 0) (hinit : q.init = p.init) (hfee : q.feeBps = p.feeBps)
    (hshares : minimumLiquidity ≤ q.totalShares) (hbound : p.Sound → q.reserveA < 2 ^ 64 ∧ q.reserveB < 2 ^ 64 ∧ q.totalShares < 2 ^ 64)
    (hA : p.reserveA * q.totalShares ≤ q.reserveA * p.totalShares)
    (hB : p.reserveB * q.totalShares ≤ q.reserveB * p.totalShares) : p.Keeps q := by
  intro h
  obtain ⟨hi, -, hpA, hpB⟩ := h.live hp
  obtain ⟨hbA, hbB, hbS⟩ := hbound h
  have hq : 0 < q.totalShares := lt_of_lt_of_le (by decide) hshares
  have hqA : 0 < q.reserveA := Nat.pos_of_mul_pos_right (lt_of_lt_of_le (Nat.mul_pos hpA hq) hA)
  have hqB : 0 < q.reserveB := Nat.pos_of_mul_pos_right (lt_of_lt_of_le (Nat.mul_pos hpB hq) hB)
  refine ⟨⟨hfee ▸ h.fee, hbA, hbB, hbS, fun _ => ⟨hinit ▸ hi, hshares, hqA, hqB⟩⟩, ⟨fun hi => hinit ▸ hi, fun _ => ?_⟩⟩
  exact ⟨hq.ne', shareValue_le_of_legs hp hq.ne' hA hB⟩

/-! ## Unchecked arithmetic in range -/

theorem wrapAdd_eq {a b : Nat} (h : a + b < 2 ^ 256) : wrapAdd a b = a + b := Nat.mod_eq_of_lt h

theorem wrapMul_eq {a b : Nat} (h : a * b < 2 ^ 256) : wrapMul a b = a * b := Nat.mod_eq_of_lt h

theorem wrapSub_eq {a b : Nat} (h : b ≤ a) (ha : a < 2 ^ 256) : wrapSub a b = a - b := by
  unfold wrapSub
  rw [Nat.mod_eq_of_lt (lt_of_le_of_lt h ha), show a + (2 ^ 256 - b) = a - b + 2 ^ 256 by omega, Nat.add_mod_right]
  exact Nat.mod_eq_of_lt (by omega)

theorem mul_lt_of_u64 {a b : Nat} (ha : a < 2 ^ 64) (hb : b < 2 ^ 64) : a * b < 2 ^ 128 := by
  calc a * b < 2 ^ 64 * 2 ^ 64 := Nat.mul_lt_mul'' ha hb
    _ = 2 ^ 128 := by norm_num

/-! ## The six paths -/

/-- A leg that grows by at least the part of the new shares. -/
theorem leg_le_of_add {r d S m : Nat} (h : m * r ≤ d * S) : r * (S + m) ≤ (r + d) * S := by
  rw [Nat.mul_add, Nat.add_mul, Nat.mul_comm r m]
  exact Nat.add_le_add_left h _

/-- `vLo`, `vHi` come from `amountToValue`. -/
theorem applyAddLiquidity_keeps {p : Pool} {vLo vHi minted addLo addHi : Nat} {added : Added} (hinit : p.init = true)
    (hLo : vLo < 2 ^ 64) (hHi : vHi < 2 ^ 64) (hok : applyAddLiquidity p vLo vHi minted addLo addHi = .ok added) :
    p.Keeps added.pool := by
  unfold applyAddLiquidity at hok
  by_cases hS : p.totalShares = 0
  · rw [if_neg (not_not.2 hS)] at hok
    simp only [except_bind_eq_ok, need_eq_ok, uint256_eq_some, refuse_eq_ok, except_pure_eq_ok, not_or, not_lt,
      not_le] at hok
    obtain ⟨_, ⟨-, rfl⟩, _, ⟨-, rfl⟩, _, ⟨hle, hmin⟩, rfl⟩ := hok
    refine Pool.keeps_of_founding hS id fun h => ?_
    have hprod : minted * minted < 2 ^ 64 * 2 ^ 64 := lt_of_le_of_lt hle (Nat.mul_lt_mul'' hLo hHi)
    have hpos : 0 < vLo * vHi := lt_of_lt_of_le (Nat.mul_pos (by omega) (by omega)) hle
    refine ⟨h.fee, hLo, hHi, Nat.mul_self_lt_mul_self_iff.1 hprod, fun _ => ⟨hinit, le_of_lt hmin, ?_, ?_⟩⟩
    · exact Nat.pos_of_mul_pos_right hpos
    · exact Nat.pos_of_mul_pos_left hpos
  · rw [if_pos hS] at hok
    simp only [except_bind_eq_ok, need_eq_ok, uint256_eq_some, refuse_eq_ok, except_pure_eq_ok, not_or, not_lt,
      not_le] at hok
    obtain ⟨_, -, _, ⟨-, rfl⟩, _, ⟨-, rfl⟩, _, hA, _, ⟨-, rfl⟩, _, ⟨-, rfl⟩, _, hB, _, ⟨-, rfl⟩, _, ⟨-, rfl⟩,
      _, ⟨-, rfl⟩, _, ⟨hbA, hbB, hbS⟩, rfl⟩ := hok
    intro h
    have hmin := (h.live hS).2.1
    refine Pool.keeps_of_legs (q := { p with
      reserveA := p.reserveA + addLo, reserveB := p.reserveB + addHi, totalShares := p.totalShares + minted })
      hS rfl rfl (hmin.trans (Nat.le_add_right _ _)) (fun _ => ⟨hbA, hbB, hbS⟩) ?_ ?_ h
    · exact leg_le_of_add hA
    · exact leg_le_of_add hB

/-- A removal of `dS` shares that takes no more than their part of each leg. -/
theorem Pool.keeps_of_removal {p : Pool} {dA dB dS : Nat} (hmin : dS + minimumLiquidity ≤ p.totalShares)
    (hA : dA * p.totalShares ≤ p.reserveA * dS) (hB : dB * p.totalShares ≤ p.reserveB * dS) :
    p.Keeps { p with reserveA := p.reserveA - dA, reserveB := p.reserveB - dB, totalShares := p.totalShares - dS } := by
  have hleg : ∀ r d : Nat, d * p.totalShares ≤ r * dS → r * (p.totalShares - dS) ≤ (r - d) * p.totalShares := by
    intro r d h
    rw [Nat.mul_sub, Nat.sub_mul]
    exact Nat.sub_le_sub_left h _
  have hS : p.totalShares ≠ 0 := by
    unfold minimumLiquidity at hmin
    omega
  refine Pool.keeps_of_legs hS rfl rfl (Nat.le_sub_of_add_le (by omega)) (fun h => ?_) (hleg _ _ hA) (hleg _ _ hB)
  exact ⟨(Nat.sub_le _ _).trans_lt h.reserveA, (Nat.sub_le _ _).trans_lt h.reserveB, (Nat.sub_le _ _).trans_lt h.shares⟩

/-- The guard of a removal in range is the one it is meant to be. -/
theorem applyRemoveLiquidity_ok {p : Pool} {shares : Nat} {removed : Pool × Nat × Nat} (h : p.Sound)
    (hshares : shares < 2 ^ 256 - minimumLiquidity) (hok : applyRemoveLiquidity p shares = .ok removed) :
    shares + minimumLiquidity ≤ p.totalShares ∧
    removed = ({ p with
      reserveA := p.reserveA - p.reserveA * shares / p.totalShares
      reserveB := p.reserveB - p.reserveB * shares / p.totalShares
      totalShares := p.totalShares - shares },
      p.reserveA * shares / p.totalShares, p.reserveB * shares / p.totalShares) := by
  simp only [applyRemoveLiquidity, except_bind_eq_ok, refuse_eq_ok, except_pure_eq_ok] at hok
  obtain ⟨_, hguard, _, hS, rfl⟩ := hok
  have hmin0 : minimumLiquidity < 2 ^ 256 := by decide
  rw [wrapAdd_eq (by omega)] at hguard
  have hguard : shares + minimumLiquidity ≤ p.totalShares := Nat.le_of_not_lt hguard
  have hlt : shares < 2 ^ 64 := by
    have := h.shares
    omega
  have hle : shares ≤ p.totalShares := by omega
  have hS0 : 0 < p.totalShares := Nat.pos_of_ne_zero hS
  have hdiv : ∀ r : Nat, r * shares / p.totalShares ≤ r := fun r =>
    Nat.div_le_of_le_mul (by rw [Nat.mul_comm p.totalShares]; exact Nat.mul_le_mul_left r hle)
  have hA := mul_lt_of_u64 h.reserveA hlt
  have hB := mul_lt_of_u64 h.reserveB hlt
  have h0 := h.reserveA
  have h1 := h.reserveB
  have h2 := h.shares
  refine ⟨hguard, ?_⟩
  rw [wrapMul_eq (by omega), wrapMul_eq (by omega), wrapSub_eq hle (by omega), wrapSub_eq (hdiv _) (by omega),
    wrapSub_eq (hdiv _) (by omega)]

theorem applyRemoveLiquidity_keeps {p : Pool} {shares : Nat} {removed : Pool × Nat × Nat}
    (hshares : shares < 2 ^ 256 - minimumLiquidity) (hok : applyRemoveLiquidity p shares = .ok removed) :
    p.Keeps removed.1 := by
  intro h
  obtain ⟨hmin, rfl⟩ := applyRemoveLiquidity_ok h hshares hok
  exact Pool.keeps_of_removal hmin (Nat.div_mul_le_self _ _) (Nat.div_mul_le_self _ _) h

/-- New reserves whose product is no smaller. -/
theorem Pool.keeps_of_product {p : Pool} {rA rB : Nat} (hA : rA < 2 ^ 64) (hB : rB < 2 ^ 64)
    (hpos : 0 < p.reserveA → 0 < p.reserveB → 0 < rA ∧ 0 < rB) (hk : p.reserveA * p.reserveB ≤ rA * rB) :
    p.Keeps { p with reserveA := rA, reserveB := rB } := by
  intro h
  refine ⟨⟨h.fee, hA, hB, h.shares, fun hS => ?_⟩, ⟨id, fun hS => ⟨hS, ?_⟩⟩⟩
  · obtain ⟨hi, hmin, hpA, hpB⟩ := h.live hS
    obtain ⟨hrA, hrB⟩ := hpos hpA hpB
    exact ⟨hi, hmin, hrA, hrB⟩
  · exact shareValue_le hS hS (Nat.mul_le_mul_right _ hk)

/-- `vIn` comes from `amountToValue`. -/
theorem applySwap_keeps {p q : Pool} {inIsLo : Bool} {vIn vOut : Nat} (hIn : vIn < 2 ^ 64)
    (hok : applySwap p inIsLo vIn vOut = .ok q) : p.Keeps q := by
  intro h
  have h0 := h.reserveA
  have h1 := h.reserveB
  have hkPre := mul_lt_of_u64 h0 h1
  simp only [applySwap, except_bind_eq_ok, refuse_eq_ok, except_pure_eq_ok] at hok
  obtain ⟨_, hout, _, hk, _, hu, rfl⟩ := hok
  cases inIsLo with
  | true =>
    simp only [if_true, not_or, not_le] at hout hk hu
    have hadd := wrapAdd_eq (a := p.reserveA) (b := vIn) (by omega)
    have hsub := wrapSub_eq (a := p.reserveB) (b := vOut) (by omega) (by omega)
    rw [hadd, hsub] at hk hu
    have hprod := mul_lt_of_u64 hu.1 hu.2
    rw [wrapMul_eq (by omega), wrapMul_eq (by omega)] at hk
    simp only [if_true, hadd, hsub]
    exact Pool.keeps_of_product hu.1 hu.2 (by omega) (Nat.le_of_not_lt hk) h
  | false =>
    simp only [Bool.false_eq_true, if_false, not_or, not_le] at hout hk hu
    have hadd := wrapAdd_eq (a := p.reserveB) (b := vIn) (by omega)
    have hsub := wrapSub_eq (a := p.reserveA) (b := vOut) (by omega) (by omega)
    rw [hadd, hsub] at hk hu
    have hprod := mul_lt_of_u64 hu.1 hu.2
    rw [wrapMul_eq (by omega), wrapMul_eq (by omega)] at hk
    simp only [Bool.false_eq_true, if_false, hadd, hsub]
    exact Pool.keeps_of_product hu.1 hu.2 (by omega) (Nat.le_of_not_lt hk) h

theorem settleSwap_keeps {p q : Pool} {w : SwapSettlement} (hok : settleSwap p w = .ok q) : p.Keeps q := by
  simp only [settleSwap, except_bind_eq_ok, refuse_eq_ok, except_pure_eq_ok, need_eq_ok, uint256_eq_some, not_or,
    not_le, not_lt, not_not] at hok
  obtain ⟨_, -, _, ⟨hA, hB⟩, _, hpos, _, hu, _, ⟨-, rfl⟩, _, ⟨-, rfl⟩, _, hk, rfl⟩ := hok
  rw [← hA, ← hB] at hk
  exact Pool.keeps_of_product hu.1 hu.2 (fun _ _ => ⟨Nat.pos_of_ne_zero hpos.1, Nat.pos_of_ne_zero hpos.2⟩) hk

theorem ckProp_ok {n1 d1 n2 d2 : Nat} {u : Unit} (hok : ckProp n1 d1 n2 d2 = .ok u) : n1 * d1 ≤ n2 * d2 := by
  simp only [ckProp, except_bind_eq_ok, refuse_eq_ok, need_eq_ok, uint256_eq_some] at hok
  obtain ⟨_, ⟨-, rfl⟩, _, ⟨-, rfl⟩, hle⟩ := hok
  exact Nat.le_of_not_lt hle

theorem settleRemove_keeps {p q : Pool} {l : LpSettlement} (hok : settleRemove p l = .ok q) : p.Keeps q := by
  simp only [settleRemove, except_bind_eq_ok, refuse_eq_ok, except_pure_eq_ok, need_eq_ok, uintSub_eq_some, not_or,
    not_lt] at hok
  obtain ⟨_, ⟨-, rfl⟩, _, ⟨-, rfl⟩, _, ⟨-, rfl⟩, _, hA, _, hB, _, ⟨-, rfl⟩, _, ⟨-, rfl⟩, _, ⟨hS, rfl⟩, _, ⟨-, -, hmin⟩,
    rfl⟩ := hok
  exact Pool.keeps_of_removal (by omega) (ckProp_ok hA) (ckProp_ok hB)

theorem settleAdd_keeps {p q : Pool} {l : LpSettlement} (hinit : p.init = true) (hok : settleAdd p l = .ok q) :
    p.Keeps q := by
  simp only [settleAdd, except_bind_eq_ok, refuse_eq_ok, except_pure_eq_ok, not_or, not_lt, not_le, not_not] at hok
  obtain ⟨_, ⟨hA, hB, hS⟩, _, ⟨hpA, hpB, hmin⟩, _, -, _, ⟨huA, huB, huS⟩, _, hchecks, rfl⟩ := hok
  by_cases h0 : p.totalShares = 0
  · refine Pool.keeps_of_founding h0 id fun h => ⟨h.fee, huA, huB, huS, fun _ => ?_⟩
    exact ⟨hinit, hmin, Nat.pos_of_ne_zero hpA, Nat.pos_of_ne_zero hpB⟩
  · rw [addChecks, if_neg (hS ▸ h0)] at hchecks
    simp only [except_bind_eq_ok, refuse_eq_ok, need_eq_ok, uintSub_eq_some] at hchecks
    obtain ⟨_, ⟨hSle, rfl⟩, _, -, _, ⟨hAle, rfl⟩, _, hckA, _, ⟨hBle, rfl⟩, hckB⟩ := hchecks
    have hleg : ∀ r r' : Nat, r ≤ r' → (l.sharesPost - p.totalShares) * r ≤ (r' - r) * p.totalShares →
        r * l.sharesPost ≤ r' * p.totalShares := by
      intro r r' hr h
      obtain ⟨m, hm⟩ := Nat.exists_eq_add_of_le (hS ▸ hSle)
      obtain ⟨d, rfl⟩ := Nat.exists_eq_add_of_le hr
      rw [hm, Nat.add_sub_cancel_left, Nat.add_sub_cancel_left] at h
      rw [hm]
      exact leg_le_of_add h
    have hckA := ckProp_ok hckA
    have hckB := ckProp_ok hckB
    rw [← hS, ← hA] at hckA
    rw [← hS, ← hB] at hckB
    exact Pool.keeps_of_legs h0 rfl rfl hmin (fun _ => ⟨huA, huB, huS⟩) (hleg _ _ (hA ▸ hAle) hckA)
      (hleg _ _ (hB ▸ hBle) hckB)

theorem settleLiquidity_keeps {p q : Pool} {l : LpSettlement} (hok : settleLiquidity p l = .ok q) : p.Keeps q := by
  simp only [settleLiquidity, except_bind_eq_ok, refuse_eq_ok] at hok
  obtain ⟨_, hinit, hok⟩ := hok
  by_cases hremove : l.sharesPost < l.sharesPre
  · rw [if_pos hremove] at hok
    exact settleRemove_keeps hok
  · rw [if_neg hremove] at hok
    exact settleAdd_keeps (by simpa using hinit) hok

/-! ## Storages -/

/-- From sound pools to sound pools, with no share worth less. -/
def Steady (s t : Storage) : Prop :=
  (∀ id, (s.pools id).Sound) → ∀ id, (t.pools id).Sound ∧ (s.pools id).Grows (t.pools id)

instance : IsPreorder Storage Steady where
  refl s h id := ⟨h id, .refl _⟩
  trans s t u hst htu h id := by
    have ht := hst h
    have hu := htu (fun id => (ht id).1) id
    exact ⟨hu.1, (ht id).2.trans hu.2⟩

theorem steady_of_pools {s t : Storage} (h : t.pools = s.pools) : Steady s t := by
  intro hs id
  rw [h]
  exact ⟨hs id, .refl _⟩

theorem steady_of_update {s t : Storage} (id : Word) {q : Pool} (hq : (s.pools id).Keeps q)
    (h : t.pools = Function.update s.pools id q) : Steady s t := by
  intro hs id'
  rw [h]
  by_cases hid : id' = id
  · rw [hid, Function.update_self]
    exact hq (hs id)
  · rw [Function.update_of_ne hid]
    exact ⟨hs id', .refl _⟩

theorem unmarked_steady : Unmarked Steady where
  preorder := inferInstance
  pair s id lo hi feeBps hinit hfee := by
    refine steady_of_update id (fun h => ?_) rfl
    have hS : (s.pools id).totalShares = 0 := by
      by_contra hS
      simpa [hinit] using (h.live hS).1
    exact Pool.keeps_of_founding hS (by simp [hinit]) (fun _ => ⟨hfee, by simp, by simp, by simp, by simp⟩) h
  reflection _ _ := steady_of_pools rfl
  registry _ _ _ := steady_of_pools rfl
  release _ _ _ := steady_of_pools rfl
  shares _ _ := steady_of_pools rfl
  farms _ _ _ := steady_of_pools rfl
  positions _ _ _ := steady_of_pools rfl
  harvests _ _ := steady_of_pools rfl
  lockTree _ _ := steady_of_pools rfl
  evmCount _ _ := steady_of_pools rfl
  nullifier _ _ := steady_of_pools rfl
  lock _ _ := steady_of_pools rfl
  position _ _ := steady_of_pools rfl
  burn _ _ := steady_of_pools rfl
  status _ _ := steady_of_pools rfl

variable {D : Deployment} {env : Env}

/-! ## Batches -/

theorem updatePool_steady {id : Word} {f : Pool → Except PoolError Pool} (hf : ∀ p q, f p = .ok q → p.Keeps q) :
    Keeps Steady (updatePool id f) := by
  intro s u t hok
  simp only [updatePool, bind_eq_ok, get_eq_ok, ofExcept_eq_ok, setPool, modify_eq_ok] at hok
  obtain ⟨_, _, ⟨rfl, rfl⟩, q, _, ⟨hq, rfl⟩, rfl⟩ := hok
  exact steady_of_update _ (hf _ _ hq) rfl

theorem reserveSection_steady (pv : PublicValues) : Keeps Steady (reserveSection pv) :=
  .bind (.forEach fun _ _ => updatePool_steady fun _ _ => settleSwap_keeps) fun _ =>
    .forEach fun _ _ => updatePool_steady fun _ _ => settleLiquidity_keeps

theorem cbtcSection_steady (pv : PublicValues) : Keeps Steady (cbtcSection D env pv) := by
  refine .bind .get fun _ => .bind .check fun _ => .forEach fun cm _ => ?_
  refine .bind .get fun _ => .bind .check fun _ => .bind .check fun _ => .bind .check fun _ => .bind .orThrow fun _ => ?_
  exact .bind .check fun _ => .modify fun s => steady_of_pools rfl

theorem leafSection_steady (pv : PublicValues) : Keeps Steady (leafSection D pv) :=
  .bind (.zoom fun _ _ => steady_of_pools rfl) fun _ => .bind .get fun _ => .check

/-- **A batch**, whatever its public values. -/
theorem settle_steady (pv : PublicValues) (memos : List Bytes) : Keeps Steady (settle D env pv memos) := by
  intro s u t hok
  obtain ⟨b, s₁, s₂, s₃, s₄, s₅, s₆, s₇, s₈, s₉, s₁₀, h⟩ := settle_sections hok
  have hR := unmarked_steady
  have h₁ := trans_of Steady (hR.homeSection (fun _ _ => steady_of_pools rfl) pv s b h.home) (hR.spendSection pv h.spend)
  have h₂ := trans_of Steady h₁ (hR.cdpSection pv h.cdp)
  have h₃ := trans_of Steady (trans_of Steady h₂ (cbtcSection_steady pv h.cbtc)) (hR.countNullifiers h.counts)
  have h₄ := trans_of Steady (trans_of Steady h₃ (hR.deposits pv h.deposits)) (hR.bridgeSection pv h.bridge)
  have h₅ := trans_of Steady (trans_of Steady h₄ (leafSection_steady pv h.leaf)) (hR.payoutSection h.payouts)
  have h₆ := trans_of Steady h₅ (hR.recordCrossOuts (fun _ _ => steady_of_pools rfl) pv [] _ h.crossOuts)
  exact trans_of Steady h₆ (reserveSection_steady pv h.reserves)

/-! ## Public calls -/

theorem setPool_steady {s t : Storage} {id : Word} {q : Pool} {u : Unit} (hq : (s.pools id).Keeps q)
    (hok : setPool id q s = .ok u t) : Steady s t := by
  obtain rfl := modify_eq_ok.1 hok
  exact steady_of_update _ hq rfl

theorem amountToValue_lt {amount unitScale v : Nat} {s t : Storage} (hok : amountToValue amount unitScale s = .ok v t) :
    v < 2 ^ 64 := by
  simp only [amountToValue, ckU64, bind_eq_ok, check_eq_ok, pure_eq_ok] at hok
  obtain ⟨_, _, -, _, _, -, _, _, ⟨hlt, -⟩, rfl, -⟩ := hok
  exact Nat.lt_of_not_le hlt

theorem ingestPublic_lt {assetId : Word} {amount v : Nat} {s t : Storage}
    (hok : ingestPublic D env assetId amount s = .ok v t) : v < 2 ^ 64 := by
  simp only [ingestPublic, bind_eq_ok, pure_eq_ok] at hok
  obtain ⟨_, _, -, _, _, -, _, _, hv, _, _, -, rfl, -⟩ := hok
  exact amountToValue_lt hv

theorem ingestPublic_steady {assetId : Word} {amount : Nat} : Keeps Steady (ingestPublic D env assetId amount) :=
  unmarked_steady.ingestPublic fun _ _ => steady_of_pools rfl

theorem ensurePair_init {assetA assetB rcptX id : Word} {feeBps rcptPrefix protocolFeeBps : Nat} {b : Bool} {s t : Storage}
    (hok : ensurePair D assetA assetB feeBps rcptPrefix rcptX protocolFeeBps b s = .ok id t) : (t.pools id).init = true := by
  simp only [ensurePair, bind_eq_ok, get_eq_ok, check_eq_ok, ite_eq_ok, pure_eq_ok, modify_eq_ok] at hok
  obtain ⟨_, _, ⟨rfl, rfl⟩, _, _, ⟨-, rfl⟩, _, _, ⟨-, rfl⟩, _, _, ⟨-, rfl⟩,
    ⟨hinit, _, _, ⟨-, rfl⟩, rfl, rfl⟩ | ⟨-, _, _, rfl, rfl, rfl⟩⟩ := hok
  · exact hinit
  · simp

theorem applyPublicAddLiquidity_steady {assetLo assetHi : Word} {feeBps amtLo amtHi minted addLo addHi : Nat}
    {recipient : Address} :
    Keeps Steady (applyPublicAddLiquidity D env assetLo assetHi feeBps amtLo amtHi minted addLo addHi recipient) := by
  refine .bind .check fun _ => .bind (.bind .get fun _ => .check) fun _ => .bind .check fun _ => ?_
  intro s shares t hok hs
  obtain ⟨id, s₁, hpair, hok₁⟩ := bind_eq_ok.1 hok
  obtain ⟨_, _, hget, hok₂⟩ := bind_eq_ok.1 hok₁
  obtain ⟨-, rfl⟩ := get_eq_ok.1 hget
  obtain ⟨_, _, heth, hok₃⟩ := bind_eq_ok.1 hok₂
  obtain ⟨-, rfl⟩ := orThrow_eq_ok.1 heth
  obtain ⟨_, _, hvalue, hok₄⟩ := bind_eq_ok.1 hok₃
  obtain ⟨-, rfl⟩ := check_eq_ok.1 hvalue
  obtain ⟨vLo, s₂, hLo, hok₅⟩ := bind_eq_ok.1 hok₄
  obtain ⟨vHi, s₃, hHi, hok₆⟩ := bind_eq_ok.1 hok₅
  obtain ⟨_, _, hget, hok₇⟩ := bind_eq_ok.1 hok₆
  obtain ⟨rfl, rfl⟩ := get_eq_ok.1 hget
  obtain ⟨added, _, hadd, hok₈⟩ := bind_eq_ok.1 hok₇
  obtain ⟨hadd, rfl⟩ := ofExcept_eq_ok.1 hadd
  obtain ⟨_, s₄, hset, hok₉⟩ := bind_eq_ok.1 hok₈
  -- the pair exists from here on, and calls out do not remove it
  have hin := trans_of Steady (ingestPublic_steady hLo) (ingestPublic_steady hHi)
  have hsound := unmarked_steady.ensurePair hpair hs
  have hinit := (hin (fun id => (hsound id).1) id).2.init (ensurePair_init hpair)
  have hset := setPool_steady (applyAddLiquidity_keeps hinit (ingestPublic_lt hLo) (ingestPublic_lt hHi) hadd) hset
  have hout : Steady s₄ t := Keeps.bind unmarked_steady.refund (fun _ => .bind unmarked_steady.refund fun _ =>
    .bind unmarked_steady.creditShares fun _ => .pure) hok₉
  exact trans_of Steady (trans_of Steady (trans_of Steady (unmarked_steady.ensurePair hpair) hin) hset) hout hs

theorem applyPublicRemoveLiquidity_steady {assetA assetB : Word} {feeBps shares : Nat} {owner recipient : Address}
    (hshares : shares < 2 ^ 256 - minimumLiquidity) :
    Keeps Steady (applyPublicRemoveLiquidity D env assetA assetB feeBps shares owner recipient) := by
  refine .bind .check fun _ => ?_
  intro s amounts t hok
  obtain ⟨_, _, hget, hok₁⟩ := bind_eq_ok.1 hok
  obtain ⟨rfl, rfl⟩ := get_eq_ok.1 hget
  obtain ⟨_, _, hbal, hok₂⟩ := bind_eq_ok.1 hok₁
  obtain ⟨-, rfl⟩ := check_eq_ok.1 hbal
  obtain ⟨removed, _, hremove, hok₃⟩ := bind_eq_ok.1 hok₂
  obtain ⟨hremove, rfl⟩ := ofExcept_eq_ok.1 hremove
  obtain ⟨_, s₁, hdebit, hok₄⟩ := bind_eq_ok.1 hok₃
  have hpools := congrArg Storage.pools (modify_eq_ok.1 hdebit)
  obtain ⟨_, s₂, hset, hok₅⟩ := bind_eq_ok.1 hok₄
  rw [← show s₁.pools = _ from hpools] at hremove
  have hset := setPool_steady (applyRemoveLiquidity_keeps hshares hremove) hset
  have hout := Keeps.bind unmarked_steady.payout (fun _ => .bind unmarked_steady.payout fun _ => .pure) hok₅
  exact trans_of Steady (trans_of Steady (steady_of_pools hpools) hset) hout

theorem applyPublicSwap_steady {assetIn assetOut : Word} {feeBps amountIn vOut : Nat} {recipient : Address} :
    Keeps Steady (applyPublicSwap D env assetIn assetOut feeBps amountIn vOut recipient) := by
  refine .bind .check fun _ => .bind (.bind .get fun _ => .check) fun _ => .bind .get fun _ => ?_
  refine .bind .check fun _ => .bind .check fun _ => ?_
  intro s amount t hok
  obtain ⟨vIn, s₁, hIn, hok₁⟩ := bind_eq_ok.1 hok
  obtain ⟨_, _, hget, hok₂⟩ := bind_eq_ok.1 hok₁
  obtain ⟨rfl, rfl⟩ := get_eq_ok.1 hget
  obtain ⟨q, _, hswap, hok₃⟩ := bind_eq_ok.1 hok₂
  obtain ⟨hswap, rfl⟩ := ofExcept_eq_ok.1 hswap
  obtain ⟨_, s₂, hset, hok₄⟩ := bind_eq_ok.1 hok₃
  have hset := setPool_steady (applySwap_keeps (ingestPublic_lt hIn) hswap) hset
  exact trans_of Steady (trans_of Steady (ingestPublic_steady hIn) hset) (unmarked_steady.payout hok₄)

/-! ## Histories -/

/-- The guard of a public removal, `shares + MINIMUM_LIQUIDITY`, does not wrap. -/
def Call.InRange : Call → Prop
  | applyPublicRemoveLiquidity _ _ _ shares _ _ => shares < 2 ^ 256 - minimumLiquidity
  | _ => True

/-- **Every call in range** keeps pools sound and their share values. -/
theorem call_steady {c : Call} (hc : c.InRange) : Keeps Steady (c.prog D env) := by
  have hR := unmarked_steady
  have hescrow : ∀ (s : Storage) (e : Word → Nat), Steady s { s with escrow := e } := fun _ _ => steady_of_pools rfl
  cases c with
  | wrap => exact hR.wrap hescrow hR.registerDeposit
  | createPairAndSettle => exact .bind hR.ensurePair fun _ => settle_steady _ _
  | applyPublicAddLiquidity => exact .bind applyPublicAddLiquidity_steady fun _ => .pure
  | applyPublicRemoveLiquidity => exact .bind (applyPublicRemoveLiquidity_steady hc) fun _ => .pure
  | applyPublicSwap => exact .bind applyPublicSwap_steady fun _ => .pure
  | shieldShares => exact .bind (hR.shieldShares hR.registerDeposit) fun _ => .pure
  | farmEscrow => exact .bind (hR.farmEscrow hescrow) fun _ => .pure
  | attestBitcoinStateProven =>
    exact hR.attestBitcoinStateProven (.bind .get fun _ => .onlyIf (.modify fun s => steady_of_pools rfl))
  | settle => exact settle_steady _ _
  | createNextGen =>
    refine .bind .check fun _ => .bind .get fun _ => .bind .check fun _ => .bind (hR.callOut _) fun _ => .bind .check fun _ => ?_
    exact .modify fun s => steady_of_pools rfl
  | registerWrapped => exact hR.call_of_quiet trivial
  | registerWrappedAuto => exact hR.call_of_quiet trivial
  | registerMinted => exact hR.call_of_quiet trivial
  | createPair => exact hR.call_of_quiet trivial
  | advanceReflectionAncestry => exact hR.call_of_quiet trivial
  | drainOverflow => exact hR.call_of_quiet trivial
  | drainOverflowRoots => exact hR.call_of_quiet trivial

theorem Pool.sound_none : Pool.none.Sound := ⟨by decide, by decide, by decide, by decide, by decide⟩

theorem Deployed.sound {s : Storage} (hs : Deployed D s) (id : Word) : (s.pools id).Sound := by
  obtain ⟨digest, last, h⟩ := hs.blind unmarked_steady.toBlind
  exact (h (fun _ => Pool.sound_none) id).1

/-- **Every pool of every reachable storage is sound.** -/
theorem Reachable.sound {s : Storage} (hs : Reachable D Call.InRange s) (id : Word) : (s.pools id).Sound := by
  refine Reachable.induct (I := fun s => ∀ id, (s.pools id).Sound) D (fun _ h => h.sound) ?_ hs id
  intro env c s t hc hsound hok id
  exact (call_steady hc hok hsound id).1

/-- At least the locked minimum of shares, and positive reserves below `2^64`. -/
def Pool.Live (p : Pool) : Prop :=
  minimumLiquidity ≤ p.totalShares ∧ (0 < p.reserveA ∧ p.reserveA < 2 ^ 64) ∧ (0 < p.reserveB ∧ p.reserveB < 2 ^ 64)

theorem Pool.Sound.isLive {p : Pool} (h : p.Sound) (hS : p.totalShares ≠ 0) : p.Live := by
  obtain ⟨-, hmin, hA, hB⟩ := h.live hS
  exact ⟨hmin, ⟨hA, h.reserveA⟩, ⟨hB, h.reserveB⟩⟩

def tokenLo : Address := 2 ^ 152

def tokenHi : Address := 2 ^ 153

def legLo : Word := evmAssetId (demoDeployment codeKeccak) tokenLo

def legHi : Word := evmAssetId (demoDeployment codeKeccak) tokenHi

def demoPair (K : Keccak) : Word := poolId (demoDeployment K) (legLo) (legHi) 0

def demoMinted (K : Keccak) : Storage :=
  { Storage.blank K 0 0 with
    assets := Function.update (Function.update (fun _ => AssetStore.none) (legLo) ⟨true, tokenLo, true, 18, 1, 0⟩)
      (legHi) ⟨true, tokenHi, true, 18, 1, 0⟩ }

/-- The pair with equal reserves. -/
def demoReserves (reserve shares : Nat) : Pool := ⟨true, legLo, legHi, reserve, reserve, 0, shares⟩

def demoPaired (K : Keccak) (reserve shares held : Nat) : Storage :=
  { demoMinted K with
    pools := Function.update (fun _ => Pool.none) (demoPair K) (demoReserves reserve shares)
    lpShares := Function.update (fun _ _ => 0) (demoPair K) (Function.update (fun _ => 0) 1 held) }

theorem demoPaired_assets (K : Keccak) (reserve shares held : Nat) :
    (demoPaired K reserve shares held).assets = (demoMinted K).assets := rfl

theorem demoPaired_successor (K : Keccak) (reserve shares held : Nat) :
    (demoPaired K reserve shares held).successor = 0 := rfl

theorem demoPaired_pools (K : Keccak) (reserve shares held : Nat) :
    (demoPaired K reserve shares held).pools (demoPair K) = demoReserves reserve shares := by simp [demoPaired]

theorem demoPaired_lpShares (K : Keccak) (reserve shares held : Nat) :
    (demoPaired K reserve shares held).lpShares (demoPair K) 1 = held := by simp [demoPaired]

theorem legs_lt : legLo < legHi := by decide

theorem evmAssetId_tokenLo (K : Keccak) : evmAssetId (demoDeployment K) tokenLo = legLo := rfl

theorem evmAssetId_tokenHi (K : Keccak) : evmAssetId (demoDeployment K) tokenHi = legHi := rfl

theorem demo_registerLo (K : Keccak) :
    (Call.registerMinted tokenLo 18).prog (demoDeployment K) demoEnv (Storage.blank K 0 0) =
      .ok () { Storage.blank K 0 0 with assets := Function.update (fun _ => AssetStore.none) legLo ⟨true, tokenLo, true, 18, 1, 0⟩ } := by
  have hlo : tokenLo ≠ 0 := by decide
  have hself : (demoDeployment K).self = 5 := rfl
  simp [Call.prog, discard, registerMinted, register, demoEnv, ethDecimals, hlo, hself, evmAssetId_tokenLo,
    Storage.blank, AssetStore.none]

theorem demo_registerHi (K : Keccak) :
    (Call.registerMinted tokenHi 18).prog (demoDeployment K) demoEnv
      { Storage.blank K 0 0 with assets := Function.update (fun _ => AssetStore.none) legLo ⟨true, tokenLo, true, 18, 1, 0⟩ } =
      .ok () (demoMinted K) := by
  have hhi : tokenHi ≠ 0 := by decide
  have hself : (demoDeployment K).self = 5 := rfl
  have hne : legHi ≠ legLo := legs_lt.ne'
  simp [Call.prog, discard, registerMinted, register, demoEnv, ethDecimals, hhi, hself, evmAssetId_tokenHi,
    Storage.blank, AssetStore.none, hne, demoMinted]

theorem sortPair_legs : sortPair legLo legHi = (legLo, legHi) := if_pos legs_lt

theorem demo_found_quote :
    applyAddLiquidity (demoReserves 0 0) 2000 2000 2000 0 0 = .ok ⟨demoReserves 2000 2000, 1000, 0, 0⟩ := rfl

theorem demo_add_quote :
    applyAddLiquidity (demoReserves 2000 2000) 1 1 1 1 1 = .ok ⟨demoReserves 2001 2001, 1, 0, 0⟩ := rfl

theorem demo_burn_quote (id : Word) :
    settleLiquidity (demoReserves 2001 2001) ⟨id, 2001, 2001, 2001, 2000, 2000, 2000⟩ = .ok (demoReserves 2000 2000) := by
  simp [settleLiquidity, settleRemove, ckProp, demoReserves, minimumLiquidity, refuse, need, uintSub, uint256]

/-- Each reserve after the removal whose guard wraps. -/
def wrappedReserve : Nat := 2 ^ 256 + 2000 - (2 ^ 256 - 2000000) / 2000

theorem wrappedReserve_large : 2 ^ 64 ≤ wrappedReserve := by norm_num [wrappedReserve]

theorem demo_remove_quote : ∃ v, v ≠ 0 ∧ v < 2 ^ 256 ∧
    applyRemoveLiquidity (demoReserves 2000 2000) (2 ^ 256 - 1000) = .ok (demoReserves wrappedReserve 3000, v, v) := by
  refine ⟨(2 ^ 256 - 2000000) / 2000, by norm_num, by norm_num, ?_⟩
  simp [applyRemoveLiquidity, demoReserves, wrapAdd, wrapMul, wrapSub, minimumLiquidity, refuse, wrappedReserve]

theorem demo_found (K : Keccak) :
    (Call.applyPublicAddLiquidity legLo legHi 0 2000 2000 2000 0 0 1).prog (demoDeployment K) demoEnv (demoMinted K) =
      .ok () (demoPaired K 2000 2000 1000) := by
  have hne : legLo ≠ legHi := legs_lt.ne
  have hle : ¬ legHi ≤ legLo := not_le.2 legs_lt
  have hlo : tokenLo ≠ 0 := by decide
  have hhi : tokenHi ≠ 0 := by decide
  have hamm : (demoDeployment K).publicAmm = 7 := rfl
  have hquote : applyAddLiquidity ⟨true, legLo, legHi, 0, 0, 0, 0⟩ 2000 2000 2000 0 0 = _ := demo_found_quote
  simp [Call.prog, discard, applyPublicAddLiquidity, onlyPublicAmm, notRetired, hle, ensurePair, demoMinted, resolveAsset,
    hne, hamm, demoEnv, Storage.blank, maxPoolFeeBps, pairId, sortPair_legs, Pool.none, expectedEth, isNativeEth, rAsset,
    hlo, hhi, ingestPublic, amountToValue, ckU64, moveInUnderlying, callOut, hquote, setPool, refund, creditShares,
    demoPaired, demoPair]

theorem demo_add (K : Keccak) {held : Nat} (h : held + 1 < 2 ^ 256) :
    (Call.applyPublicAddLiquidity legLo legHi 0 1 1 1 1 1 1).prog (demoDeployment K) demoEnv (demoPaired K 2000 2000 held) =
      .ok () (demoPaired K 2001 2001 (held + 1)) := by
  have hne : legLo ≠ legHi := legs_lt.ne
  have hle : ¬ legHi ≤ legLo := not_le.2 legs_lt
  have hlo : tokenLo ≠ 0 := by decide
  have hhi : tokenHi ≠ 0 := by decide
  have hamm : (demoDeployment K).publicAmm = 7 := rfl
  have hinit : (demoReserves 2000 2000).init = true := rfl
  simp [Call.prog, discard, applyPublicAddLiquidity, onlyPublicAmm, notRetired, hle, ensurePair, demoMinted, resolveAsset,
    hne, hamm, demoEnv, Storage.blank, maxPoolFeeBps, pairId, sortPair_legs, Pool.none, expectedEth, isNativeEth, rAsset,
    hlo, hhi, ingestPublic, amountToValue, ckU64, moveInUnderlying, callOut, demo_add_quote, setPool, refund, creditShares,
    demoPaired, demoPair, hinit]
  exact h

def demoBurn (K : Keccak) : PublicValues :=
  { PublicValues.none (demoDeployment K).chainBinding with
    liquidity := [⟨demoPair K, 2001, 2001, 2001, 2000, 2000, 2000⟩] }

theorem demo_burn (K : Keccak) (held : Nat) :
    (Call.settle (demoBurn K) []).prog (demoDeployment K) demoEnv (demoPaired K 2001 2001 held) =
      .ok () (demoPaired K 2000 2000 held) := by
  simp [Call.prog, settle, settleChecks, homeOf, demoBurn, PublicValues.none, retirementGate, rootChecks, spendSection,
    insertLeaves, cdpSection, cdpRootCheck, cdpMints, cbtcSection, countNullifiers, bridgeSection, mintBurns, leafSection,
    appendLeaves, markRoot, payoutSection, recordCrossOuts, demoEnv, demoPaired, demoMinted, Storage.blank, updatePool,
    demo_burn_quote, setPool, memoChain, Tree.empty]

theorem demo_payout (K : Keccak) {s : Storage} (hs : s.assets = (demoMinted K).assets) {leg : Word}
    (hleg : leg = legLo ∨ leg = legHi) {v : Nat} (hv0 : v ≠ 0) (hv : v < 2 ^ 256) :
    payout (demoDeployment K) demoEnv leg 1 v s = .ok v s := by
  have hself : (demoDeployment K).self = 5 := rfl
  have hasset : ∃ token, s.assets leg = ⟨true, token, true, 18, 1, 0⟩ := by
    rw [hs]
    rcases hleg with rfl | rfl
    · exact ⟨tokenLo, by simp [demoMinted, legs_lt.ne]⟩
    · exact ⟨tokenHi, by simp [demoMinted]⟩
  obtain ⟨token, hasset⟩ := hasset
  simp [payout, hv0, resolveAsset, hasset, checkRecipient, hself, sendOut, moveOut, callOut, demoEnv]
  exact hv

/-- A removal the reserves allow is accepted. -/
theorem demo_remove (K : Keccak) {s : Storage} {shares v : Nat} {q : Pool}
    (hquote : applyRemoveLiquidity (demoReserves 2000 2000) shares = .ok (q, v, v)) (hv0 : v ≠ 0) (hv : v < 2 ^ 256)
    (hassets : s.assets = (demoMinted K).assets) (hpool : s.pools (demoPair K) = demoReserves 2000 2000)
    (hheld : shares ≤ s.lpShares (demoPair K) 1) :
    ∃ t, (Call.applyPublicRemoveLiquidity legLo legHi 0 shares 1 1).prog (demoDeployment K) demoEnv s = .ok () t ∧
      t.pools (demoPair K) = q ∧ t.assets = s.assets ∧ t.successor = s.successor := by
  have hamm : (demoDeployment K).publicAmm = 7 := rfl
  have hsender : demoEnv.sender = 7 := rfl
  have hid : poolId (demoDeployment K) legLo legHi 0 = demoPair K := rfl
  let left := Function.update (s.lpShares (demoPair K)) 1 (s.lpShares (demoPair K) 1 - shares)
  let debited : Storage := { s with lpShares := Function.update s.lpShares (demoPair K) left }
  let t : Storage := { debited with pools := Function.update s.pools (demoPair K) q }
  have hLo := demo_payout K (s := t) hassets (Or.inl rfl) hv0 hv
  have hHi := demo_payout K (s := t) hassets (Or.inr rfl) hv0 hv
  have hok : applyPublicRemoveLiquidity (demoDeployment K) demoEnv legLo legHi 0 shares 1 1 s = .ok (v, v) t := by
    simp only [applyPublicRemoveLiquidity, onlyPublicAmm, sortPair_legs, hid, bind_eq_ok, check_eq_ok, get_eq_ok,
      ofExcept_eq_ok, modify_eq_ok, setPool, pure_eq_ok]
    exact ⟨(), s, ⟨by simp [hamm, hsender], rfl⟩, s, s, ⟨rfl, rfl⟩, (), s, ⟨Nat.not_lt.2 hheld, rfl⟩, (q, v, v), s,
      ⟨hpool ▸ hquote, rfl⟩, (), debited, rfl, (), t, rfl, v, t, hLo, v, t, hHi, rfl, rfl⟩
  refine ⟨t, ?_, Function.update_self _ _ _, rfl, rfl⟩
  simp [Call.prog, discard, hok]

/-- Shares minted in public and burnt in batches: any balance is reached. -/
theorem demo_reachable (K : Keccak) : ∀ n : Nat, n < 2 ^ 256 - 1000 →
    Reachable (demoDeployment K) Call.InRange (demoPaired K 2000 2000 (1000 + n))
  | 0, _ => by
    have h0 : Reachable (demoDeployment K) Call.InRange _ := .deployed (demo_deployed K)
    have h := h0.call demoEnv (.registerMinted tokenLo 18) trivial
    rw [call_of_ok (demo_registerLo K)] at h
    have h := h.call demoEnv (.registerMinted tokenHi 18) trivial
    rw [call_of_ok (demo_registerHi K)] at h
    have h := h.call demoEnv (.applyPublicAddLiquidity legLo legHi 0 2000 2000 2000 0 0 1) trivial
    rw [call_of_ok (demo_found K)] at h
    exact h
  | n + 1, hn => by
    have h := (demo_reachable K n (by omega)).call demoEnv (.applyPublicAddLiquidity legLo legHi 0 1 1 1 1 1 1) trivial
    rw [call_of_ok (demo_add K (by omega))] at h
    have h := h.call demoEnv (.settle (demoBurn K) []) trivial
    rw [call_of_ok (demo_burn K _)] at h
    exact h

/-- The first balance the guard wraps for. -/
theorem demo_reachable_wrap (K : Keccak) :
    Reachable (demoDeployment K) Call.InRange (demoPaired K 2000 2000 (2 ^ 256 - 1000)) := by
  have hs := demo_reachable K (2 ^ 256 - 2000) (by norm_num)
  have hheld : 1000 + (2 ^ 256 - 2000) = 2 ^ 256 - 1000 := by norm_num
  rwa [hheld] at hs

end ConfidentialPool

end Tacit
