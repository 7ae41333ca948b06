import Mathlib.Tactic.Ring
import Tacit.Vault.Steps
/-!
# Borrowing and liquidation (contracts/src/TacVault.sol:377-489, :667-770, :891-950)

A loan is admitted at the mint ratio and the lowest of the borrow prices, and liquidated below the liquidation ratio at the highest of
the liquidation prices. That the first leaves room below it rests on the terms, which are checked in pairs, each change against what
the other terms then are; and on the short window, which both prices read.
-/
namespace Tacit

namespace TacVault

open Prog

/-! ## The terms -/

/-- What the pairs of terms keep to each other. -/
structure Terms.Coherent (t : Terms) : Prop where
  margin : t.liqRatioBps + minMarginBps ≤ t.mintRatioBps
  bonus : BPS + t.liqBonusBps < t.liqRatioBps
  window : t.ownerWindow < t.auctionDuration

theorem Terms.Coherent.set {cfg : Config} {t : Terms} {id : Param} {v : Nat} (ht : t.Coherent) (h : validate cfg t id v = .ok ()) :
    (t.set v id).Coherent := by
  obtain ⟨hmargin, hbonus, hwindow⟩ := ht
  cases id with
  | mintRatioBps =>
    simp only [validate, refuse_eq_ok, not_or, not_lt] at h
    exact ⟨h.2, hbonus, hwindow⟩
  | liqRatioBps =>
    simp only [validate, refuse_eq_ok, not_or, not_lt, not_le] at h
    exact ⟨h.2.2.1, h.2.2.2, hwindow⟩
  | liqBonusBps =>
    simp only [validate, refuse_eq_ok, not_or, not_lt, not_le] at h
    exact ⟨hmargin, h.2.2, hwindow⟩
  | ownerWindow =>
    simp only [validate, refuse_eq_ok, not_or, not_lt, not_le] at h
    exact ⟨hmargin, hbonus, h.2.2⟩
  | auctionDuration =>
    simp only [validate, refuse_eq_ok, not_or, not_lt, not_le] at h
    exact ⟨hmargin, hbonus, h.2.2⟩
  | depthBps | minDebt => exact ⟨hmargin, hbonus, hwindow⟩

theorem Terms.Coherent.changes {cfg : Config} {t u : Terms} (ht : t.Coherent) (h : t.Changes cfg u) : u.Coherent := by
  cases h with
  | same => exact ht
  | execute hvalid => exact ht.set hvalid
  | lower | fee => exact ⟨ht.margin, ht.bonus, ht.window⟩

theorem construct_coherent {cfg : Config} {e : Env} {c : Setup} {tac : Nat} {synth : Address → Nat} {s : Storage}
    (h : construct cfg e c tac synth = .ok s) : s.terms.Coherent := by
  simp only [construct, except_bind_eq_ok, refuse_eq_ok, except_pure_eq_ok, validate, not_or, not_lt, not_le] at h
  obtain ⟨_, -, _, -, _, -, _, -, _, -, _, -, _, -, _, hmint, _, -, _, hbonus, _, hwindow, _, -, rfl⟩ := h
  exact ⟨hmint.2, hbonus.2.2, hwindow.2.2⟩

theorem exists_last : ∀ calls : List (Env × Call), ∃ t, ∀ c ∈ calls, c.1.now ≤ t
  | [] => ⟨0, fun _ hc => by cases hc⟩
  | c :: calls => by
    obtain ⟨t, ht⟩ := exists_last calls
    refine ⟨max c.1.now t, fun d hd => ?_⟩
    rcases List.mem_cons.1 hd with rfl | hd
    · exact le_max_left _ _
    · exact (ht d hd).trans (le_max_right _ _)

theorem run_coherent {cfg : Config} {e : Env} {c : Setup} {tac : Nat} {synth : Address → Nat} {s : Storage}
    (h : construct cfg e c tac synth = .ok s) {calls : List (Env × Call)}
    (htimes : calls.Pairwise fun c d => c.1.now ≤ d.1.now) : (run cfg calls s).terms.Coherent := by
  obtain ⟨last, hlast⟩ := exists_last calls
  exact (run_steps (R := fun _ s => s.terms.Coherent) (fun _ _ ht => ht) (fun hsteps ht => ht.changes hsteps.terms)
    (construct_inv h) (construct_clocked h) (construct_coherent h) ⟨fun _ _ => Nat.zero_le _, htimes⟩ hlast (Nat.zero_le _)).2.2

/-! ## Prices -/

section Prices

variable {cfg : Config} {e e' : Env} {s : Storage} {x y p q : Nat}

theorem inSynth_ok (h : inSynth cfg e x = .ok p) : ∃ f, e.feed = some f ∧ p = x * f.answer.toNat / 10 ^ cfg.feedDecimals := by
  simp only [inSynth, except_bind_eq_ok, need_eq_ok, refuse_eq_ok, except_pure_eq_ok, mul_eq_ok] at h
  obtain ⟨f, hf, _, -, _, -, _, -, _, -, _, -, _, ⟨-, rfl⟩, rfl⟩ := h
  exact ⟨f, hf, rfl⟩

theorem inSynth_mono (hfeed : e'.feed = e.feed) (hp : inSynth cfg e x = .ok p) (hq : inSynth cfg e' y = .ok q) (hle : x ≤ y) :
    p ≤ q := by
  obtain ⟨f, hf, rfl⟩ := inSynth_ok hp
  obtain ⟨g, hg, rfl⟩ := inSynth_ok hq
  obtain rfl : f = g := Option.some.inj (hf.symm.trans (hfeed ▸ hg))
  exact Nat.div_le_div_right (Nat.mul_le_mul_right _ hle)

/-- No low median is above its high median. -/
def Oracle.Ordered (o : Oracle) : Prop := ∀ w lo hi, o.prices w = some (lo, hi) → lo ≤ hi

/-- The borrow price is at most the low median of the short window, the liquidation price at least the high one. -/
theorem borrow_le_liq (horacle : e'.oracle = e.oracle) (hfeed : e'.feed = e.feed) (hordered : (e.oracle s.oracle).Ordered)
    (hp : borrowUsdPerTac cfg e s = .ok p) (hq : liqUsdPerTac cfg e' s = .ok q) : p ≤ q := by
  simp only [borrowUsdPerTac, except_bind_eq_ok, need_eq_ok] at hp
  simp only [liqUsdPerTac, except_bind_eq_ok, need_eq_ok, horacle] at hq
  obtain ⟨_, -, _, -, w, hw, ⟨lo, hi⟩, hshort, _, -, hp⟩ := hp
  obtain ⟨_, -, _, -, w', hw', ⟨lo', hi'⟩, hshort', hq⟩ := hq
  obtain rfl : w = w' := Option.some.inj (hw.symm.trans hw')
  obtain ⟨rfl, rfl⟩ : lo = lo' ∧ hi = hi' := Prod.mk.inj (Option.some.inj (hshort.symm.trans hshort'))
  refine inSynth_mono hfeed hp hq ?_
  calc _ ≤ lo := (min_le_left _ _).trans (min_le_right _ _)
    _ ≤ hi := hordered w lo hi hshort
    _ ≤ _ := le_max_right _ _

end Prices

/-! ## A loan that was allowed -/

section Loan

variable {cfg : Config} {e e' : Env} {s t : Storage} {owner payee : Address} {amount limit : Nat}

/-- The check that a borrow and a withdrawal end with, as the call leaves the vault. -/
def Lent (cfg : Config) (e : Env) (owner : Address) (t : Storage) : Prop :=
  (t.vaults owner).debt ≠ 0 → requireBorrowHealthy cfg e t (t.vaults owner) = .ok ()

theorem runs_withdrawTo_lent : Runs (withdrawTo cfg e owner amount payee) s fun _ t => t.terms = s.terms ∧ t.oracle = s.oracle ∧
    Lent cfg e owner t := by
  refine .get (.check (by simp [Fair]) fun _ => .check (by simp [Fair]) fun _ => ?_)
  refine .except (fair_sub (min_le_right _ _)) fun collateral _ => .modify (.get (.except ?_ fun _ hlent => ?_))
  · exact .ite fair_requireBorrowHealthy .pure
  · refine runs_sendTac.mono ?_
    rintro _ u ⟨left, _, rfl⟩
    refine ⟨rfl, rfl, ?_⟩
    simp only [Lent, Storage.setVault, Function.update_self]
    intro hdebt
    rw [if_pos hdebt] at hlent
    exact hlent

theorem runs_borrowTo_lent : Runs (borrowTo cfg e owner amount limit payee) s fun _ t => t.terms = s.terms ∧ t.oracle = s.oracle ∧
    Lent cfg e owner t := by
  refine .get (.check (by simp [Fair]) fun _ => .check (by simp [Fair]) fun _ => .check (by simp [Fair]) fun _ => ?_)
  refine .except fair_mul fun scaled _ => .except fair_add fun debt₁ _ => .except fair_add fun debt _ => ?_
  refine .check (by simp [Fair]) fun _ => .except fair_add fun total₁ _ => .except fair_add fun total _ => ?_
  refine .check (by simp [Fair]) fun _ => .except fair_depth fun _ _ => .except fair_mul fun _ _ => .except fair_mul fun _ _ => ?_
  refine .check (by simp [Fair]) fun _ => .modify (.get (.except fair_requireBorrowHealthy fun _ hlent => .bind ?_))
  have hvault : requireBorrowHealthy cfg e (s.setVault owner { s.vaults owner with debt := debt })
      ((s.setVault owner { s.vaults owner with debt := debt }).vaults owner) = .ok () := by
    rw [setVault_vaults, Function.update_self]
    exact hlent
  refine runs_mintSynth.mono ?_
  rintro _ t ⟨synth, rfl⟩
  unfold onlyIf
  by_cases hfee : scaled / BPS ≠ 0
  · rw [if_pos hfee]
    refine runs_mintSynth.mono ?_
    rintro _ u ⟨synth', rfl⟩
    exact ⟨rfl, rfl, fun _ => hvault⟩
  · rw [if_neg hfee]
    exact ⟨rfl, rfl, fun _ => hvault⟩

/-- At the same prices the liquidation check finds it healthy, unless it has no price at all. -/
theorem Lent.not_liquidated (h : Lent cfg e owner t) (ht : t.terms.Coherent) (horacle : e'.oracle = e.oracle)
    (hfeed : e'.feed = e.feed) (hordered : (e.oracle t.oracle).Ordered) (u : Storage) : liquidate cfg e' owner t ≠ .ok () u := by
  intro hok
  simp only [liquidate, bind_eq_ok, get_eq_ok, check_eq_ok, ofExcept_eq_ok, mul_eq_ok, and_assoc, exists_and_left, exists_eq_left,
    exists_const] at hok
  obtain ⟨-, -, hdebt, q, hq, worth', hworth', -, -, hbelow, -⟩ := hok
  have hlent := h hdebt
  simp only [requireBorrowHealthy, except_bind_eq_ok, refuse_eq_ok, mul_eq_ok] at hlent
  obtain ⟨_, ⟨-, rfl⟩, p, hp, worth, hworth, _, ⟨-, rfl⟩, hcovered⟩ := hlent
  obtain ⟨-, rfl⟩ := fullMulDiv_eq_ok hworth
  obtain ⟨-, rfl⟩ := fullMulDiv_eq_ok hworth'
  refine hbelow ?_
  have hprice : p ≤ q := borrow_le_liq horacle hfeed hordered hp hq
  have hratio : _ ≤ _ := (Nat.le_add_right _ _).trans ht.margin
  calc _ ≤ _ := Nat.mul_le_mul_left _ hratio
    _ ≤ _ := not_lt.1 hcovered
    _ ≤ _ := Nat.mul_le_mul_right _ (Nat.div_le_div_right (Nat.mul_le_mul_left _ hprice))

/-- A borrow or a withdrawal from `o`'s vault. -/
def Call.Lends (e : Env) (o : Address) : Call → Prop
  | .borrow .. | .withdraw _ => e.sender = o
  | .borrowFor owner .. | .withdrawFor owner .. => owner = o
  | _ => False

theorem runs_lends {c : Call} (hc : c.Lends e owner) : Runs (c.prog cfg e) s fun _ t => t.terms = s.terms ∧ t.oracle = s.oracle ∧
    Lent cfg e owner t := by
  cases c with
  | withdraw amount =>
    obtain rfl : e.sender = owner := hc
    exact runs_withdrawTo_lent
  | borrow amount limit =>
    obtain rfl : e.sender = owner := hc
    exact runs_borrowTo_lent
  | withdrawFor owner' amount payee deadline bytes =>
    obtain rfl : owner' = owner := hc
    refine .bind (runs_useNonceOf.mono fun nonce t ⟨_, ht⟩ => .bind (runs_authorize.mono fun _ u ⟨_, hu⟩ => ?_))
    subst ht hu
    exact runs_withdrawTo_lent
  | borrowFor owner' amount limit least payee deadline bytes =>
    obtain rfl : owner' = owner := hc
    refine .bind (runs_useNonceOf.mono fun nonce t ⟨_, ht⟩ => .bind (runs_authorize.mono fun _ u ⟨_, hu⟩ => ?_))
    subst ht hu
    exact .get (.check (by simp [Fair]) fun _ => runs_borrowTo_lent)
  | _ => exact hc.elim

/-! ## A full bid -/

/-- What a bid for a whole debt takes of a vault that covers it at the liquidation ratio: the bonus stays below that ratio. -/
theorem sold_lt {collateral debt rate ratio price : Nat} (hdebt : 0 < debt) (hrate : rate < ratio) (hprice : 0 < price)
    (hcovered : debt * ratio * WAD ≤ collateral * price * BPS) : debt * rate / BPS * WAD / price < collateral := by
  have hBPS : 0 < BPS := by decide
  have hWAD : 0 < WAD := by decide
  rw [Nat.div_lt_iff_lt_mul hprice]
  refine Nat.lt_of_mul_lt_mul_right (a := BPS) ?_
  calc debt * rate / BPS * WAD * BPS = debt * rate / BPS * BPS * WAD := by ring
    _ ≤ debt * rate * WAD := Nat.mul_le_mul_right _ (Nat.div_mul_le_self _ _)
    _ < debt * ratio * WAD := Nat.mul_lt_mul_of_pos_right (Nat.mul_lt_mul_of_pos_left hrate hdebt) hWAD
    _ ≤ collateral * price * BPS := hcovered

/-- The offer on it, at any time of the auction. -/
theorem offer_lt {most price : Nat} {priced : Bool} (hs : s.terms.Coherent) (hprice : offerUsdPerTac cfg e s = .ok price)
    (hcovered : (s.vaults owner).debt * s.terms.liqRatioBps * WAD ≤ (s.vaults owner).collateral * price * BPS)
    (hdebt : 0 < (s.vaults owner).debt) (h : offer cfg e s owner = .ok (most, priced)) : most < (s.vaults owner).collateral := by
  simp only [offer, hprice, except_bind_eq_ok, except_pure_eq_ok, Prod.mk.injEq, mul_eq_ok, add_eq_ok] at h
  obtain ⟨t, -, since, -, _, ⟨-, rfl⟩, _, ⟨-, rfl⟩, _, ⟨-, rfl⟩, tac, htac, rfl, -⟩ := h
  obtain ⟨hpos, rfl⟩ := fullMulDiv_eq_ok htac
  have hduration : 0 < s.terms.auctionDuration := Nat.zero_lt_of_lt hs.window
  have hrise : s.terms.liqBonusBps * min since s.terms.auctionDuration / s.terms.auctionDuration ≤ s.terms.liqBonusBps :=
    Nat.div_le_of_le_mul (by rw [Nat.mul_comm]; exact Nat.mul_le_mul_right _ (min_le_right _ _))
  have hrate := Nat.lt_of_le_of_lt (Nat.add_le_add_left hrise BPS) hs.bonus
  exact Nat.lt_of_le_of_lt (min_le_right _ _) (sold_lt hdebt hrate hpos hcovered)

theorem full_bid_lt {price : Nat} (hs : s.terms.Coherent) (hprice : offerUsdPerTac cfg e s = .ok price)
    (hcovered : (s.vaults owner).debt * s.terms.liqRatioBps * WAD ≤ (s.vaults owner).collateral * price * BPS)
    (hfull : (s.vaults owner).debt ≤ amount) (h : bid cfg e owner amount limit s = .ok () t) :
    (s.vaults owner).collateral - (t.vaults owner).collateral < (s.vaults owner).collateral := by
  simp only [bid, bind_eq_ok, get_eq_ok, check_eq_ok, ofExcept_eq_ok, sub_eq_ok, mul_eq_ok, modify_eq_ok, and_assoc, exists_and_left,
    exists_eq_left, exists_const] at h
  obtain ⟨-, ⟨most, priced⟩, hoffer, _, -, hdebt, -, -, -, -, htaken, -, _, u₁, hend, _, u₂, hburn, hsend⟩ := h
  rw [min_eq_right hfull] at hdebt htaken
  have hpos := Nat.pos_of_ne_zero hdebt
  have hmost := offer_lt hs hprice hcovered hpos hoffer
  obtain ⟨start, -, rfl⟩ := wp_of_ok runs_tryEnd hend
  obtain ⟨synth, rfl⟩ := wp_of_ok runs_burnSynth hburn
  obtain ⟨left, -, rfl⟩ := wp_of_ok runs_sendTac hsend
  simp only [Storage.setVault, Function.update_self, min_eq_right hfull]
  rw [Nat.mul_div_cancel _ hpos] at htaken ⊢
  omega

end Loan

/-- **Loans**, after any calls by anyone, the changes of the terms and of the oracle among them: the terms keep the mint ratio 20%
above the liquidation ratio, that above par with the bonus, and the owner's window within the auction; a vault whose borrow or
withdrawal is accepted cannot be liquidated at the same prices; and a bid for the whole debt of a vault that is at the liquidation
ratio at the offer price, or above it, takes less than its collateral. -/
theorem loans_stand {cfg : Config} {e₀ : Env} {c₀ : Setup} {tac : Nat} {synth : Address → Nat} {s₀ : Storage}
    (h : construct cfg e₀ c₀ tac synth = .ok s₀) {calls : List (Env × Call)}
    (htimes : calls.Pairwise fun c d => c.1.now ≤ d.1.now) :
    let s := run cfg calls s₀
    (s.terms.liqRatioBps + 2000 ≤ s.terms.mintRatioBps ∧ 10000 + s.terms.liqBonusBps < s.terms.liqRatioBps ∧
      s.terms.ownerWindow < s.terms.auctionDuration) ∧
    (∀ (e : Env) (c : Call) o t, (e.oracle s.oracle).Ordered → c.Lends e o → c.prog cfg e s = .ok () t → ∀ e' : Env, e'.oracle = e.oracle →
      e'.feed = e.feed → ∀ u, (Call.liquidate o).prog cfg e' t ≠ .ok () u) ∧
    ∀ e o amount minTac price t, offerUsdPerTac cfg e s = .ok price →
      (s.vaults o).debt * s.terms.liqRatioBps * WAD ≤ (s.vaults o).collateral * price * BPS → (s.vaults o).debt ≤ amount →
      (Call.bid o amount minTac).prog cfg e s = .ok () t →
      (s.vaults o).collateral - (t.vaults o).collateral < (s.vaults o).collateral := by
  intro s
  have hs : s.terms.Coherent := run_coherent h htimes
  refine ⟨⟨hs.margin, hs.bonus, hs.window⟩, fun e c o t hordered hc hok e' horacle hfeed u => ?_, fun e o amount minTac price t => ?_⟩
  · obtain ⟨hterms, horacle', hlent⟩ := wp_of_ok (runs_lends hc) hok
    exact hlent.not_liquidated (hterms ▸ hs) horacle hfeed (horacle' ▸ hordered) u
  · exact fun hprice hcovered hfull hok => full_bid_lt hs hprice hcovered hfull hok

/-- A loan against twice its worth, which nobody can liquidate while the prices stand. -/
theorem loans_stand_borrow : ∃ s₀ t, construct demoVaultConfig demoVaultEnv demoSetup 0 (fun _ => 0) = .ok s₀ ∧
    (Call.borrow 200 100).prog demoVaultConfig demoVaultEnv
      (run demoVaultConfig [(demoVaultEnv, .deposit 400)] s₀) = .ok () t ∧
    ∀ u, (Call.liquidate 7).prog demoVaultConfig { demoVaultEnv with sender := 8 } t ≠ .ok () u := by
  obtain ⟨s₀, hs₀, hborrow⟩ : ∃ s₀, construct demoVaultConfig demoVaultEnv demoSetup 0 (fun _ => 0) = .ok s₀ ∧
      wp False ((Call.borrow 200 100).prog demoVaultConfig demoVaultEnv) (run demoVaultConfig [(demoVaultEnv, .deposit 400)] s₀)
        (fun _ _ => False) fun _ _ => True := ⟨_, rfl, trivial⟩
  obtain ⟨_, t, hlent, -⟩ := ok_of_wp hborrow
  have hordered : demoOracle.Ordered := by
    rintro w lo hi ⟨⟩
    exact le_rfl
  have htimes : [(demoVaultEnv, Call.deposit 400)].Pairwise fun c d => c.1.now ≤ d.1.now := List.pairwise_singleton _ _
  have hstand := (loans_stand hs₀ htimes).2.1 demoVaultEnv (.borrow 200 100) 7 t
  exact ⟨s₀, t, hs₀, hlent, fun u => hstand hordered rfl hlent { demoVaultEnv with sender := 8 } rfl rfl u⟩

end TacVault

end Tacit
