import Tacit.Pool.ShareValue
/-!
# Retirement

`createNextGen` names a successor and retires the pool. `Drained s t` says what may happen from then on: the
escrow, the reserves and the shares of every pool only fall, nothing more is consumed from Bitcoin and no cBTC
is minted, and there is no cross-out until the handoff record is written. Every entry point is shown to keep it
on a retired pool.
-/
namespace Tacit

open Prog

namespace ConfidentialPool

/-- Reserves and shares that do not grow. -/
structure Pool.Shrinks (p q : Pool) : Prop where
  reserveA : q.reserveA ≤ p.reserveA
  reserveB : q.reserveB ≤ p.reserveB
  shares : q.totalShares ≤ p.totalShares

theorem Pool.Shrinks.refl (p : Pool) : p.Shrinks p := ⟨le_rfl, le_rfl, le_rfl⟩

theorem Pool.Shrinks.trans {p q r : Pool} (h : p.Shrinks q) (h' : q.Shrinks r) : p.Shrinks r :=
  ⟨h'.reserveA.trans h.reserveA, h'.reserveB.trans h.reserveB, h'.shares.trans h.shares⟩

/-- What may happen to a retired pool. -/
structure Drained (s t : Storage) : Prop where
  successor : t.successor = s.successor
  escrow : ∀ a, t.escrow a ≤ s.escrow a
  consumed : t.consumed.count = s.consumed.count
  cbtc : t.cbtcMinted = s.cbtcMinted
  pools : ∀ id, (s.pools id).Shrinks (t.pools id)
  written : s.handoffDigest ≠ 0 → t.handoffDigest = s.handoffDigest
  crossOuts : t.handoffDigest = 0 → t.crossOuts.count = s.crossOuts.count

theorem Drained.refl (s : Storage) : Drained s s :=
  ⟨rfl, fun _ => le_rfl, rfl, rfl, fun _ => .refl _, fun _ => rfl, fun _ => rfl⟩

theorem Drained.trans {s t u : Storage} (h : Drained s t) (h' : Drained t u) : Drained s u where
  successor := h'.successor.trans h.successor
  escrow a := (h'.escrow a).trans (h.escrow a)
  consumed := h'.consumed.trans h.consumed
  cbtc := h'.cbtc.trans h.cbtc
  pools id := (h.pools id).trans (h'.pools id)
  written hs := by
    have ht := h.written hs
    rw [h'.written (by rwa [ht]), ht]
  crossOuts hu := by
    -- a record that is not written at the end was not written before
    have ht : t.handoffDigest = 0 := by
      by_contra ht
      exact ht ((h'.written ht).symm.trans hu)
    exact (h'.crossOuts hu).trans (h.crossOuts ht)

/-- A step that keeps pools sound, and drains them once they are retired. -/
def Drains (s t : Storage) : Prop :=
  Steady s t ∧ (s.successor ≠ 0 → (∀ id, (s.pools id).Sound) → Drained s t)

instance : IsPreorder Storage Drains where
  refl s := ⟨refl_of Steady s, fun _ _ => .refl s⟩
  trans s t u h h' := by
    refine ⟨trans_of Steady h.1 h'.1, fun hs hsound => ?_⟩
    have ht := h.2 hs hsound
    exact ht.trans (h'.2 (by rwa [ht.successor]) fun id => (h.1 hsound id).1)

/-- The slots of `Drained` are unchanged, or the escrow is less. -/
theorem drains_of_eq {s t : Storage} (hpools : t.pools = s.pools) (hsuccessor : t.successor = s.successor)
    (hescrow : ∀ a, t.escrow a ≤ s.escrow a) (hconsumed : t.consumed = s.consumed) (hcbtc : t.cbtcMinted = s.cbtcMinted)
    (hdigest : t.handoffDigest = s.handoffDigest) (hcross : t.crossOuts = s.crossOuts) : Drains s t := by
  refine ⟨steady_of_pools hpools, fun _ _ => ?_⟩
  refine ⟨hsuccessor, hescrow, by rw [hconsumed], hcbtc, fun id => ?_, fun _ => hdigest, fun _ => by rw [hcross]⟩
  rw [hpools]
  exact .refl _

theorem drains_of_update {s t : Storage} {id : Word} {q : Pool} (h : t = { s with pools := Function.update s.pools id q })
    (hsteady : Steady s t) (hq : (s.pools id).Sound → (s.pools id).Shrinks q) : Drains s t := by
  refine ⟨hsteady, fun _ hsound => ?_⟩
  rw [h]
  refine ⟨rfl, fun _ => le_rfl, rfl, rfl, fun id' => ?_, fun _ => rfl, fun _ => rfl⟩
  show (s.pools id').Shrinks (Function.update s.pools id q id')
  by_cases hid : id' = id
  · rw [hid, Function.update_self]
    exact hq (hsound id)
  · rw [Function.update_of_ne hid]
    exact .refl _

theorem unmarked_drains : Unmarked Drains where
  preorder := inferInstance
  pair s id lo hi feeBps hinit hfee := by
    refine drains_of_update rfl (unmarked_steady.pair s id lo hi feeBps hinit hfee) fun _ => ?_
    exact ⟨Nat.zero_le _, Nat.zero_le _, Nat.zero_le _⟩
  reflection _ _ := drains_of_eq rfl rfl (fun _ => le_rfl) rfl rfl rfl rfl
  registry _ _ _ := drains_of_eq rfl rfl (fun _ => le_rfl) rfl rfl rfl rfl
  release s id amount := by
    refine drains_of_eq rfl rfl (fun a => ?_) rfl rfl rfl rfl
    show Function.update s.escrow id (s.escrow id - amount) a ≤ s.escrow a
    by_cases ha : a = id
    · rw [ha, Function.update_self]
      exact Nat.sub_le _ _
    · rw [Function.update_of_ne ha]
  shares _ _ := drains_of_eq rfl rfl (fun _ => le_rfl) rfl rfl rfl rfl
  farms _ _ _ := drains_of_eq rfl rfl (fun _ => le_rfl) rfl rfl rfl rfl
  positions _ _ _ := drains_of_eq rfl rfl (fun _ => le_rfl) rfl rfl rfl rfl
  harvests _ _ := drains_of_eq rfl rfl (fun _ => le_rfl) rfl rfl rfl rfl
  lockTree _ _ := drains_of_eq rfl rfl (fun _ => le_rfl) rfl rfl rfl rfl
  evmCount _ _ := drains_of_eq rfl rfl (fun _ => le_rfl) rfl rfl rfl rfl
  nullifier _ _ := drains_of_eq rfl rfl (fun _ => le_rfl) rfl rfl rfl rfl
  lock _ _ := drains_of_eq rfl rfl (fun _ => le_rfl) rfl rfl rfl rfl
  position _ _ := drains_of_eq rfl rfl (fun _ => le_rfl) rfl rfl rfl rfl
  burn _ _ := drains_of_eq rfl rfl (fun _ => le_rfl) rfl rfl rfl rfl
  status _ _ := drains_of_eq rfl rfl (fun _ => le_rfl) rfl rfl rfl rfl

variable {D : Deployment} {env : Env}

/-! ## Batches -/

theorem settleRemove_shrinks {p q : Pool} {l : LpSettlement} (hok : settleRemove p l = .ok q) : p.Shrinks q := by
  simp only [settleRemove, except_bind_eq_ok, refuse_eq_ok, except_pure_eq_ok, need_eq_ok, uintSub_eq_some] at hok
  obtain ⟨_, ⟨-, rfl⟩, _, ⟨-, rfl⟩, _, ⟨-, rfl⟩, _, -, _, -, _, ⟨-, rfl⟩, _, ⟨-, rfl⟩, _, ⟨-, rfl⟩, _, -, rfl⟩ := hok
  exact ⟨Nat.sub_le _ _, Nat.sub_le _ _, Nat.sub_le _ _⟩

/-- A liquidity settlement that burns shares is a removal. -/
theorem updateLiquidity_drains {id : Word} {l : LpSettlement} (hl : l.sharesPost < l.sharesPre) :
    Keeps Drains (updatePool id (settleLiquidity · l)) := by
  intro s u t hok
  have hsteady := updatePool_steady (fun _ _ => settleLiquidity_keeps) hok
  simp only [updatePool, bind_eq_ok, get_eq_ok, ofExcept_eq_ok, setPool, modify_eq_ok] at hok
  obtain ⟨_, _, ⟨rfl, rfl⟩, q, _, ⟨hq, rfl⟩, ht⟩ := hok
  simp only [settleLiquidity, except_bind_eq_ok, refuse_eq_ok, if_pos hl] at hq
  obtain ⟨_, -, hq⟩ := hq
  exact drains_of_update ht hsteady fun _ => settleRemove_shrinks hq

/-- What the retirement gate lets through. -/
structure PublicValues.LocalExit (pv : PublicValues) (b : Bool) (s : Storage) : Prop where
  home : b = false
  swaps : pv.swaps = []
  cbtcMints : pv.cbtcMints = []
  crossOuts : pv.crossOuts = [] ∨ s.handoffDigest ≠ 0
  liquidity : ∀ l ∈ pv.liquidity, l.sharesPost < l.sharesPre

theorem settleChecks_localExit {pv : PublicValues} {s : Storage} {b : Bool} (h : settleChecks D env pv s = .ok b)
    (hs : s.successor ≠ 0) : pv.LocalExit b s := by
  simp only [settleChecks, except_bind_eq_ok, refuse_eq_ok, except_pure_eq_ok] at h
  obtain ⟨-, -, -, -, -, -, -, -, -, -, _, -, _, -, _, hgate, rfl⟩ := h
  rw [retirementGate, if_pos hs] at hgate
  simp only [requireLocalExitOnly, except_bind_eq_ok, refuse_eq_ok, not_or, not_and_or, not_not] at hgate
  obtain ⟨_, ⟨hhome, hswaps, hcbtc, hcross⟩, _, hliquidity, -⟩ := hgate
  refine ⟨by simpa using hhome, hswaps, List.eq_nil_of_length_eq_zero hcbtc, hcross, ?_⟩
  intro l hl
  by_contra hle
  exact hliquidity ⟨l, hl, Nat.le_of_not_lt hle⟩

theorem leafSection_drains (pv : PublicValues) : Keeps Drains (leafSection D pv) :=
  .bind (.zoom fun _ _ => drains_of_eq rfl rfl (fun _ => le_rfl) rfl rfl rfl rfl) fun _ => .bind .get fun _ => .check

/-- The cross-out loop writes only its log. -/
theorem recordCrossOuts_only (pv : PublicValues) : ∀ {seen : List Word} {l : List CrossOut} {s t : Storage} {u : Unit},
    recordCrossOuts D pv seen l s = .ok u t → ∃ log, t = { s with crossOuts := log }
  | _, [], s, t, u, hok => by
    obtain ⟨-, rfl⟩ := pure_eq_ok.1 hok
    exact ⟨t.crossOuts, rfl⟩
  | seen, c :: l, s, t, u, hok => by
    simp only [recordCrossOuts, bind_eq_ok, check_eq_ok, modify_eq_ok] at hok
    obtain ⟨_, _, ⟨-, rfl⟩, _, _, ⟨-, rfl⟩, _, _, ⟨-, rfl⟩, _, _, ⟨-, rfl⟩, _, _, ⟨-, rfl⟩, _, _, rfl, hrest⟩ := hok
    obtain ⟨log, rfl⟩ := recordCrossOuts_only pv hrest
    exact ⟨log, rfl⟩

/-- With the record written, or nothing to record. -/
theorem recordCrossOuts_drains {pv : PublicValues} {s t : Storage} {u : Unit} (h : pv.crossOuts = [] ∨ s.handoffDigest ≠ 0)
    (hok : recordCrossOuts D pv [] pv.crossOuts s = .ok u t) : Drains s t := by
  rcases h with hnil | hdigest
  · rw [hnil] at hok
    obtain ⟨-, rfl⟩ := pure_eq_ok.1 hok
    exact refl_of Drains t
  · obtain ⟨log, rfl⟩ := recordCrossOuts_only pv hok
    refine ⟨steady_of_pools rfl, fun _ _ => ?_⟩
    exact ⟨rfl, fun _ => le_rfl, rfl, rfl, fun _ => .refl _, fun _ => rfl, fun h => absurd h hdigest⟩

theorem reserveSection_drains {pv : PublicValues} {b : Bool} {s₀ : Storage} (h : pv.LocalExit b s₀) :
    Keeps Drains (reserveSection pv) := by
  unfold reserveSection
  rw [h.swaps]
  exact .bind (.forEach fun w hw => absurd hw List.not_mem_nil) fun _ =>
    .forEach fun l hl => updateLiquidity_drains (h.liquidity l hl)

/-- **A batch on a retired pool** is a local exit. -/
theorem settle_drains (pv : PublicValues) (memos : List Bytes) : Keeps Drains (settle D env pv memos) := by
  intro s u t hok
  refine ⟨settle_steady pv memos hok, fun hs hsound => ?_⟩
  obtain ⟨b, s₁, s₂, s₃, s₄, s₅, s₆, s₇, s₈, s₉, s₁₀, h⟩ := settle_sections hok
  have hR := unmarked_drains
  have hexit := settleChecks_localExit h.checks hs
  have hhome : s₁ = s := by
    have hhome := h.home
    rw [hexit.home] at hhome
    obtain ⟨habs, -⟩ | ⟨-, hsame⟩ := onlyIf_eq_ok.1 hhome
    · exact absurd habs Bool.false_ne_true
    · exact hsame
  have hcbtc : Drains s₃ s₄ := by
    have hcbtc := h.cbtc
    rw [cbtcSection, hexit.cbtcMints] at hcbtc
    exact Keeps.bind .get (fun _ => .bind .check fun _ => .forEach fun m hm => absurd hm List.not_mem_nil) hcbtc
  have h₁ : Drains s s₃ := hhome ▸ trans_of Drains (hR.spendSection pv h.spend) (hR.cdpSection pv h.cdp)
  have h₂ := trans_of Drains (trans_of Drains h₁ hcbtc) (hR.countNullifiers h.counts)
  have h₃ := trans_of Drains (trans_of Drains h₂ (hR.deposits pv h.deposits)) (hR.bridgeSection pv h.bridge)
  have h₄ := trans_of Drains (trans_of Drains h₃ (leafSection_drains pv h.leaf)) (hR.payoutSection h.payouts)
  have hwritten : pv.crossOuts = [] ∨ s₉.handoffDigest ≠ 0 := by
    rcases hexit.crossOuts with hnil | hdigest
    · exact Or.inl hnil
    · refine Or.inr ?_
      rwa [(h₄.2 hs hsound).written hdigest]
  have h₅ := trans_of Drains h₄ (recordCrossOuts_drains hwritten h.crossOuts)
  exact (trans_of Drains h₅ (reserveSection_drains hexit h.reserves)).2 hs hsound

/-! ## Calls -/

/-- Of a retired pool only the first attest writes the record. -/
theorem recordHandoff_drains : Keeps Drains recordHandoff := by
  intro s u t hok
  obtain ⟨_, _, hget, hrest⟩ := bind_eq_ok.1 hok
  obtain ⟨rfl, rfl⟩ := get_eq_ok.1 hget
  obtain ⟨⟨-, hdigest⟩, hwrite⟩ | ⟨-, rfl⟩ := onlyIf_eq_ok.1 hrest
  · obtain rfl := modify_eq_ok.1 hwrite
    refine ⟨steady_of_pools rfl, fun _ _ => ?_⟩
    exact ⟨rfl, fun _ => le_rfl, rfl, rfl, fun _ => .refl _, fun h => absurd hdigest h, fun _ => rfl⟩
  · exact refl_of Drains t

/-- A retired pool takes in only what it burns. -/
theorem wrap_drained {assetId : Word} {amount : Nat} {commit : Word} {s t : Storage} {u : Unit} (hs : s.successor ≠ 0)
    (hok : wrap D env assetId amount commit s = .ok u t) : Drains s t := by
  have hR := unmarked_drains
  obtain ⟨_, _, hget, hok₁⟩ := bind_eq_ok.1 hok
  obtain ⟨rfl, rfl⟩ := get_eq_ok.1 hget
  obtain ⟨_, _, hregistered, hok₂⟩ := bind_eq_ok.1 hok₁
  obtain ⟨-, rfl⟩ := check_eq_ok.1 hregistered
  obtain ⟨_, s, hcheck, hok₃⟩ := bind_eq_ok.1 hok₂
  obtain ⟨hretired, rfl⟩ := check_eq_ok.1 hcheck
  have hminted : (rAsset s assetId).poolMinted = true := by
    by_contra hminted
    exact hretired ⟨by simpa using hminted, hs⟩
  refine Keeps.bind hR.amountToValue (fun v => .bind (hR.registerDeposit _) fun _ => .bind .check fun _ => ?_) hok₃
  unfold moveInUnderlying
  rw [if_pos hminted]
  exact hR.callOut _

theorem notRetired_ok {s t : Storage} {u : Unit} (hok : notRetired s = .ok u t) : s.successor = 0 := by
  simp only [notRetired, bind_eq_ok, get_eq_ok, check_eq_ok, not_not] at hok
  obtain ⟨_, _, ⟨rfl, rfl⟩, h, -⟩ := hok
  exact h

theorem applyPublicRemoveLiquidity_drains {assetA assetB : Word} {feeBps shares : Nat} {owner recipient : Address}
    (hshares : shares < 2 ^ 256 - minimumLiquidity) :
    Keeps Drains (applyPublicRemoveLiquidity D env assetA assetB feeBps shares owner recipient) := by
  have hR := unmarked_drains
  refine .bind .check fun _ => ?_
  intro s amounts t hok
  obtain ⟨_, _, hget, hok₁⟩ := bind_eq_ok.1 hok
  obtain ⟨rfl, rfl⟩ := get_eq_ok.1 hget
  obtain ⟨_, _, hbal, hok₂⟩ := bind_eq_ok.1 hok₁
  obtain ⟨-, rfl⟩ := check_eq_ok.1 hbal
  obtain ⟨removed, _, hremove, hok₃⟩ := bind_eq_ok.1 hok₂
  obtain ⟨hremove, rfl⟩ := ofExcept_eq_ok.1 hremove
  obtain ⟨_, s₁, hdebit, hok₄⟩ := bind_eq_ok.1 hok₃
  have hdebit := modify_eq_ok.1 hdebit
  have hpools : s₁.pools = _ := congrArg Storage.pools hdebit
  obtain ⟨_, s₂, hset, hok₅⟩ := bind_eq_ok.1 hok₄
  rw [← hpools] at hremove
  have hsteady := setPool_steady (applyRemoveLiquidity_keeps hshares hremove) hset
  have hset : Drains s₁ s₂ := by
    refine drains_of_update (modify_eq_ok.1 hset) hsteady fun hsound => ?_
    obtain ⟨-, hremoved⟩ := applyRemoveLiquidity_ok hsound hshares hremove
    rw [hremoved]
    exact ⟨Nat.sub_le _ _, Nat.sub_le _ _, Nat.sub_le _ _⟩
  have hout := Keeps.bind hR.payout (fun _ => .bind hR.payout fun _ => .pure) hok₅
  refine trans_of Drains (trans_of Drains ?_ hset) hout
  rw [hdebit]
  exact hR.shares _ _

/-- **Every call in range** drains a retired pool. -/
theorem call_drains {c : Call} (hc : c.InRange) : Keeps Drains (c.prog D env) := by
  have hR := unmarked_drains
  cases c with
  | wrap =>
    intro s u t hok
    refine ⟨call_steady hc hok, fun hs => ?_⟩
    exact (wrap_drained hs hok).2 hs
  | createPairAndSettle => exact .bind hR.ensurePair fun _ => settle_drains _ _
  | applyPublicAddLiquidity =>
    intro s u t hok
    refine ⟨call_steady hc hok, fun hs => ?_⟩
    obtain ⟨_, _, hok, -⟩ := bind_eq_ok.1 hok
    obtain ⟨_, _, hsender, hok₁⟩ := bind_eq_ok.1 hok
    obtain ⟨-, rfl⟩ := check_eq_ok.1 hsender
    obtain ⟨_, _, hactive, -⟩ := bind_eq_ok.1 hok₁
    exact absurd (notRetired_ok hactive) hs
  | applyPublicRemoveLiquidity => exact .bind (applyPublicRemoveLiquidity_drains hc) fun _ => .pure
  | applyPublicSwap =>
    intro s u t hok
    refine ⟨call_steady hc hok, fun hs => ?_⟩
    obtain ⟨_, _, hok, -⟩ := bind_eq_ok.1 hok
    obtain ⟨_, _, hsender, hok₁⟩ := bind_eq_ok.1 hok
    obtain ⟨-, rfl⟩ := check_eq_ok.1 hsender
    obtain ⟨_, _, hactive, -⟩ := bind_eq_ok.1 hok₁
    exact absurd (notRetired_ok hactive) hs
  | shieldShares => exact .bind (hR.shieldShares hR.registerDeposit) fun _ => .pure
  | farmEscrow controller rewardAsset amount recipient =>
    intro s u t hok
    refine ⟨call_steady hc hok, fun hs => ?_⟩
    by_cases hamount : amount = 0
    · have hsweep : Keeps Drains (discard (farmEscrow D env controller rewardAsset amount recipient)) := by
        unfold farmEscrow
        rw [if_pos hamount]
        exact .bind hR.farmSweep fun _ => .pure
      exact (hsweep hok).2 hs
    · obtain ⟨_, _, hok, -⟩ := bind_eq_ok.1 hok
      rw [farmEscrow, if_neg hamount] at hok
      obtain ⟨_, _, hactive, -⟩ := bind_eq_ok.1 hok
      exact absurd (notRetired_ok hactive) hs
  | attestBitcoinStateProven => exact hR.attestBitcoinStateProven recordHandoff_drains
  | settle => exact settle_drains _ _
  | createNextGen =>
    intro s u t hok
    refine ⟨call_steady hc hok, fun hs => ?_⟩
    obtain ⟨_, _, hsender, hok₁⟩ := bind_eq_ok.1 hok
    obtain ⟨-, rfl⟩ := check_eq_ok.1 hsender
    obtain ⟨_, _, hget, hok₂⟩ := bind_eq_ok.1 hok₁
    obtain ⟨rfl, rfl⟩ := get_eq_ok.1 hget
    obtain ⟨_, _, hactive, -⟩ := bind_eq_ok.1 hok₂
    exact absurd hs (check_eq_ok.1 hactive).1
  | registerWrapped => exact hR.call_of_quiet trivial
  | registerWrappedAuto => exact hR.call_of_quiet trivial
  | registerMinted => exact hR.call_of_quiet trivial
  | createPair => exact hR.call_of_quiet trivial
  | advanceReflectionAncestry => exact hR.call_of_quiet trivial
  | drainOverflow => exact hR.call_of_quiet trivial
  | drainOverflowRoots => exact hR.call_of_quiet trivial

/-! ## Histories -/

theorem run_drains (s : Storage) {calls : List (Env × Call)} (hcalls : ∀ c ∈ calls, c.2.InRange) :
    Drains s (run D s calls) := by
  induction calls generalizing s with
  | nil => exact refl_of Drains s
  | cons c calls ih =>
    have hstep : Drains s ((c.2.prog D c.1).call s) :=
      call_keeps (I := Drains s) (refl_of Drains s) fun _ _ hok => call_drains (hcalls c (by simp)) hok
    exact trans_of Drains hstep (ih _ fun c' hc' => hcalls c' (by simp [hc']))

theorem createNextGen_retires {s t : Storage} {u : Unit} (hok : createNextGen D env s = .ok u t) : t.successor ≠ 0 := by
  simp only [createNextGen, bind_eq_ok, check_eq_ok, get_eq_ok, modify_eq_ok, not_or] at hok
  obtain ⟨_, _, -, _, _, -, _, _, -, _, _, -, _, _, ⟨hcode, -⟩, rfl⟩ := hok
  exact hcode.1

theorem Reachable.run {ok : Call → Prop} {s : Storage} (hs : Reachable D ok s) {calls : List (Env × Call)}
    (hcalls : ∀ c ∈ calls, ok c.2) : Reachable D ok (ConfidentialPool.run D s calls) := by
  induction calls generalizing s with
  | nil => exact hs
  | cons c calls ih =>
    exact ih (hs.call c.1 c.2 (hcalls c (by simp))) fun c' hc' => hcalls c' (by simp [hc'])

def stewardEnv : Env := { demoEnv with sender := 8 }

def demoRetired (K : Keccak) (held : Nat) : Storage := { demoPaired K 2000 2000 held with successor := 9 }

theorem demo_retire (K : Keccak) (held : Nat) :
    createNextGen (demoDeployment K) stewardEnv (demoPaired K 2000 2000 held) = .ok () (demoRetired K held) := by
  have hsteward : (demoDeployment K).lineageSteward = 8 := rfl
  simp [createNextGen, callOut, stewardEnv, demoEnv, hsteward, demoPaired_successor, demoRetired]

theorem demoRetired_pools (K : Keccak) (held : Nat) : (demoRetired K held).pools (demoPair K) = demoReserves 2000 2000 :=
  demoPaired_pools K 2000 2000 held

theorem demo_redeem (K : Keccak) {held shares v : Nat} {q : Pool} (hheld : shares ≤ held)
    (hquote : applyRemoveLiquidity (demoReserves 2000 2000) shares = .ok (q, v, v)) (hv0 : v ≠ 0) (hv : v < 2 ^ 256) :
    ∃ u, (Call.applyPublicRemoveLiquidity legLo legHi 0 shares 1 1).prog (demoDeployment K) demoEnv (demoRetired K held) =
      .ok () u ∧ u.pools (demoPair K) = q := by
  obtain ⟨u, hok, hu, -⟩ := demo_remove K (s := demoRetired K held) hquote hv0 hv (demoPaired_assets K 2000 2000 held)
    (demoRetired_pools K held) (hheld.trans (demoPaired_lpShares K 2000 2000 held).ge)
  exact ⟨u, hok, hu⟩

theorem run_nil (s : Storage) : run D s [] = s := rfl

theorem run_singleton (s : Storage) (c : Env × Call) : run D s [c] = (c.2.prog D c.1).call s := rfl

end ConfidentialPool

end Tacit
