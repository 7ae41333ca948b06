import Tacit.Guest.Receipts
import Tacit.Pool.Floor
/-!
# Stamped receipts and the pool

A controller that stamps receipts is what it makes of the pool's calls (`ReceiptController`): a bond stamps, a close
unstamps, and nothing else does. Beside the pool, whose batches come from the guest, a stamp says that its receipt was
bonded and not unbonded since. That its nullifier is unspent, and that its owner is a key, holds as far as the bonds of the
run were sane.
-/
namespace Tacit

open Prog ConfidentialPool

namespace SettleGuest

/-- What a controller at an address makes of the pool's calls, at a time, and its promises about the stamps. -/
structure ReceiptController (K : Keccak) where
  St : Type
  address : U 160
  stamped : St → Word → Bool
  /-- What a transaction finds: the transient fields are cleared. -/
  start : St → St
  /-- The states its constructor leaves. -/
  fresh : Nat → St → Prop
  mint : Nat → CdpMint → St → St → Prop
  topup : Nat → CdpTopup → St → St → Prop
  close : Nat → CdpClose → St → St → Prop
  liquidate : Nat → CdpClose → St → St → Prop
  /-- Its other transactions, and the end of a transaction. -/
  own : Nat → Nat → St → St → Prop
  sound : Nat → St → Prop
  /-- The lock-up of a receipt has passed. -/
  ready : Nat → St → Receipt → Prop
  start_stamped {s w} : stamped (start s) w = stamped s w
  fresh_stamped {now s w} : fresh now s → stamped s w = false
  mint_stamped {now m s t w} : mint now m s t → stamped t w = true →
    stamped s w = true ∨ m.positionLeaf = wordOfNat 1 ∧ m.debtValue = 0 ∧ m.rateSnapshot = uintOfWord w
  topup_stamped {now u s t w} : topup now u s t → stamped t w = true → stamped s w = true
  close_stamped {now c s t w} : close now c s t → stamped t w = true →
    stamped s w = true ∧ (c.debtValue = 0 → c.rateSnapshot = uintOfWord w → w = 0)
  liquidate_stamped {now q s t w} : liquidate now q s t → stamped t w = true → stamped s w = true
  own_stamped {now now' s t w} : own now now' s t → stamped t w = true → stamped s w = true
  start_sound {now s} : sound now s → sound now (start s)
  fresh_sound {now s} : fresh now s → sound now s
  bond_sound {now r s t} : sound now s → mint now (bondMint K address r) s t → 0 < r.shares.val → sound now t
  harvest_sound {now r asset reward s t} : sound now s → mint now (harvestMint K address r asset reward) s t →
    0 < reward.val → sound now t
  mint_sound {now m s t} : sound now s → mint now m s t → m.positionLeaf ≠ wordOfNat 1 → sound now t
  topup_sound {now u s t} : sound now s → topup now u s t → sound now t
  unbond_sound {now r s t} : sound now s → close now (unbondClose K address r) s t → sound now t
  close_sound {now c s t} : sound now s → close now c s t → c.debtValue ≠ 0 → sound now t
  liquidate_sound {now q s t} : sound now s → liquidate now q s t → sound now t
  own_sound {now now' s t} : sound now s → own now now' s t → sound now' t
  exits {now s r} : sound now s → stamped s (r.leaf K) = true → ready now s r →
    ∃ t, close now (unbondClose K address r) (start s) t

/-- The calls of a list are accepted one after another. -/
def Each {α σ : Type} (R : α → σ → σ → Prop) : List α → σ → σ → Prop
  | [], s, t => t = s
  | a :: l, s, t => ∃ u, R a s u ∧ Each R l u t

theorem Each.invariant {α σ : Type} {R : α → σ → σ → Prop} {I : σ → Prop} : ∀ {l : List α} {s t : σ},
    (∀ a ∈ l, ∀ s t, I s → R a s t → I t) → Each R l s t → I s → I t
  | [], _, _, _, h, hs => h ▸ hs
  | a :: l, _, _, hstep, h, hs => by
    obtain ⟨u, ha, hl⟩ := h
    exact Each.invariant (fun b hb => hstep b (List.mem_cons_of_mem _ hb)) hl (hstep a List.mem_cons_self _ _ hs ha)

/-- A property that no call of the list gives back holds before each. -/
theorem Each.back {α σ : Type} {R : α → σ → σ → Prop} {I : σ → Prop} {J : α → Prop} : ∀ {l : List α} {s t : σ},
    (∀ a ∈ l, ∀ s t, R a s t → I t → I s ∧ J a) → Each R l s t → I t → I s ∧ ∀ a ∈ l, J a
  | [], _, _, _, h, ht => ⟨h ▸ ht, nofun⟩
  | a :: l, _, _, hstep, h, ht => by
    obtain ⟨u, ha, hl⟩ := h
    obtain ⟨hu, hJ⟩ := Each.back (fun b hb => hstep b (List.mem_cons_of_mem _ hb)) hl ht
    obtain ⟨hs, ha⟩ := hstep a List.mem_cons_self _ _ ha hu
    exact ⟨hs, List.forall_mem_cons.2 ⟨ha, hJ⟩⟩

variable {C : Proofs} {D : Deployment} {R : ReceiptController C.toKeccak}

/-- The controller accepts the calls of a batch, in the pool's order (ConfidentialPool.sol:2001-:2068). -/
def ReceiptController.Hears (R : ReceiptController C.toKeccak) (now : Nat) (pv : PublicValues) (s t : R.St) : Prop :=
  ∃ s₁ s₂ s₃, Each (R.mint now) (pv.cdpMints.filter fun m => m.controller = R.address.val) (R.start s) s₁ ∧
    Each (R.topup now) (pv.cdpTopups.filter fun u => u.controller = R.address.val) s₁ s₂ ∧
    Each (R.close now) (pv.cdpCloses.filter fun c => c.controller = R.address.val) s₂ s₃ ∧
    Each (R.liquidate now) (pv.cdpLiquidations.filter fun q => q.controller = R.address.val) s₃ t

/-- A controller that is not deployed hears nothing: a call to it fails. -/
def ReceiptController.Heard (R : ReceiptController C.toKeccak) (now : Nat) (pv : PublicValues) : Option R.St → Option R.St → Prop
  | some s, some t => R.Hears now pv s t
  | none, none => (∀ m ∈ pv.cdpMints, m.controller ≠ R.address.val) ∧ ∀ c ∈ pv.cdpCloses, c.controller ≠ R.address.val
  | _, _ => False

/-- The pool and one controller, with the time of the open block. -/
structure World (R : ReceiptController C.toKeccak) where
  pool : ConfidentialPool.Storage
  controller : Option R.St
  now : Nat

/-- A call of the pool, whose batch the guest has committed, or a step of the controller. `P` is asked of the bonds of
the controller's receipts. An operation on another position closes none of the controller without debt, as it has none. -/
inductive Step (C : Proofs) (D : Deployment) (R : ReceiptController C.toKeccak)
    (P : ConfidentialPool.Storage → Receipt → Prop) : World R → World R → Prop
  | settle (env : Env) (c : Call) (H : Header) (memoHashes : List Word) (ops : List (Op C.toKeccak)) {w : World R}
      {pv : PublicValues} {pool : ConfidentialPool.Storage} {controller : Option R.St} :
    env.timestamp = w.now → c.batch = some pv → main C H memoHashes ops = some pv →
    (∀ op ∈ ops, ∀ x ∈ op.foreign, x.controller = R.address.val → x.debtValue ≠ 0) →
    (∀ op ∈ ops, ∀ r, op.bonds C H = some r → r.farm = controller32 R.address → P w.pool r) →
    c.prog D env w.pool = .ok () pool → R.Heard w.now pv w.controller controller → Step C D R P w ⟨pool, controller, w.now⟩
  | call (env : Env) (c : Call) {w : World R} {pool : ConfidentialPool.Storage} :
    env.timestamp = w.now → c.batch = none → c.prog D env w.pool = .ok () pool → Step C D R P w { w with pool := pool }
  | deploy {w : World R} {s : R.St} :
    w.controller = none → R.fresh w.now s → Step C D R P w { w with controller := some s }
  | own {w : World R} {now' : Nat} {s t : R.St} :
    w.controller = some s → R.own w.now now' s t → Step C D R P w ⟨w.pool, some t, now'⟩
  | idle {w : World R} {now' : Nat} : w.controller = none → w.now ≤ now' → Step C D R P w { w with now := now' }

/-! ## What a stamp says -/

/-- The receipt behind a stamp: bonded into the tree at leaf `w`, with shares of its own, and not unbonded. -/
structure Held (R : ReceiptController C.toKeccak) (pool : ConfidentialPool.Storage) (leaves : List Word) (w : Word)
    (r : Receipt) : Prop where
  leaf_eq : r.leaf C.toKeccak = w
  farm_eq : r.farm = controller32 R.address
  leaf_mem : w ∈ leaves
  shares_pos : 0 < r.shares.val
  unspent : pool.nullifierSpent (r.nullifier C.toKeccak) = false

/-- `key` is the x-only key of a point: what a handler with a position asks of its owner (:3955). -/
def XOnly (C : Crypto) (key : Word) : Prop := (C.decompress (2 :: key.bytes)).isSome

/-- A bond that can be left again: its owner is a key, and its receipt was never unbonded. -/
def Sane (C : Proofs) (pool : ConfidentialPool.Storage) (r : Receipt) : Prop :=
  XOnly C.toCrypto r.owner ∧ pool.nullifierSpent (r.nullifier C.toKeccak) = false

structure World.Sound (D : Deployment) (w : World R) : Prop where
  floored : Floored w.pool
  positions (r : Receipt) : w.pool.cdpPositionSpent (r.nullifier C.toKeccak) = true →
    w.pool.nullifierSpent (r.nullifier C.toKeccak) = true
  controller (s : R.St) : w.controller = some s → R.sound w.now s
  stamps : ∃ leaves, w.pool.notes.Holds D.keccak leaves ∧ ∀ s, w.controller = some s → ∀ x, R.stamped s x = true →
    ∃ r, Held R w.pool leaves x r ∧ XOnly C.toCrypto r.owner

/-! ## Hearing a batch -/

theorem ReceiptController.Hears.stamped {now : Nat} {pv : PublicValues} {s t : R.St} (h : R.Hears now pv s t) {w : Word}
    (hw : R.stamped t w = true) :
    (R.stamped s w = true ∨ ∃ m ∈ pv.cdpMints, m.controller = R.address.val ∧ m.positionLeaf = wordOfNat 1 ∧ m.debtValue = 0 ∧
      m.rateSnapshot = uintOfWord w) ∧
    ∀ c ∈ pv.cdpCloses, c.controller = R.address.val → c.debtValue = 0 → c.rateSnapshot = uintOfWord w → w = 0 := by
  obtain ⟨s₁, s₂, s₃, hmints, htopups, hcloses, hliquidations⟩ := h
  obtain ⟨h₃, -⟩ := Each.back (I := fun u => R.stamped u w = true) (J := fun _ => True) (fun q _ _ _ hq ht => ⟨R.liquidate_stamped hq ht, trivial⟩) hliquidations hw
  obtain ⟨h₂, hclosed⟩ := Each.back (I := fun u => R.stamped u w = true) (fun c _ _ _ hc ht => R.close_stamped hc ht) hcloses h₃
  obtain ⟨h₁, -⟩ := Each.back (I := fun u => R.stamped u w = true) (J := fun _ => True) (fun u _ _ _ hu ht => ⟨R.topup_stamped hu ht, trivial⟩) htopups h₂
  refine ⟨?_, fun c hc haddr => hclosed c (List.mem_filter.2 ⟨hc, decide_eq_true haddr⟩)⟩
  by_cases hbond : ∃ m ∈ pv.cdpMints, m.controller = R.address.val ∧ m.positionLeaf = wordOfNat 1 ∧ m.debtValue = 0 ∧
      m.rateSnapshot = uintOfWord w
  · exact Or.inr hbond
  · obtain ⟨h₀, -⟩ := Each.back (I := fun u => R.stamped u w = true) (J := fun _ => True) (fun m hm _ _ hm' ht => by
      refine ⟨(R.mint_stamped hm' ht).resolve_right fun hb => hbond ?_, trivial⟩
      obtain ⟨hmem, haddr⟩ := List.mem_filter.1 hm
      exact ⟨m, hmem, of_decide_eq_true haddr, hb⟩) hmints h₁
    exact Or.inl (R.start_stamped ▸ h₀)

/-- A lawful batch that the controller hears leaves it sound. -/
theorem ReceiptController.Hears.sound {B : Receipt → Prop} {e : Effects}
    (he : e.Lawful C.toKeccak B fun c => c.controller = R.address.val → c.debtValue ≠ 0) {now : Nat} {pv : PublicValues}
    (hmints : pv.cdpMints = e.cdpMints) (hcloses : pv.cdpCloses = e.cdpCloses) {s t : R.St} (h : R.Hears now pv s t)
    (hs : R.sound now s) : R.sound now t := by
  obtain ⟨s₁, s₂, s₃, hm, hu, hc, hq⟩ := h
  refine Each.invariant (I := R.sound now) (fun q _ _ _ hs hq => R.liquidate_sound hs hq) hq ?_
  refine Each.invariant (I := R.sound now) (fun c hmem _ _ hs hc => ?_) hc ?_
  · obtain ⟨hmem, haddr⟩ := List.mem_filter.1 hmem
    have haddr := of_decide_eq_true haddr
    obtain ⟨a, r, rfl, -⟩ | hforeign := he.closes c (hcloses ▸ hmem)
    · obtain rfl : a = R.address := Fin.ext haddr
      exact R.unbond_sound hs hc
    · exact R.close_sound hs hc (hforeign haddr)
  refine Each.invariant (I := R.sound now) (fun u _ _ _ hs hu => R.topup_sound hs hu) hu ?_
  refine Each.invariant (I := R.sound now) (fun m hmem _ _ hs hm => ?_) hm (R.start_sound hs)
  obtain ⟨hmem, haddr⟩ := List.mem_filter.1 hmem
  have haddr := of_decide_eq_true haddr
  obtain ⟨a, r, -, hbond⟩ | ⟨a, r, asset, reward, rfl, -, hpos⟩ | hother := he.mints m (hmints ▸ hmem)
  · obtain rfl := hbond.mint_eq
    obtain rfl : a = R.address := Fin.ext haddr
    exact R.bond_sound hs hm hbond.shares_pos
  · obtain rfl : a = R.address := Fin.ext haddr
    exact R.harvest_sound hs hm hpos
  · exact R.mint_sound hs hm hother

/-- The receipt of a leaf that a lawful batch leaves stamped is not spent by it: who spends it closes it. -/
theorem ReceiptController.Hears.kept (hC : C.toKeccak.Ideal) {B : Receipt → Prop} {F : CdpClose → Prop} {e : Effects}
    (he : e.Lawful C.toKeccak B F) {now : Nat} {pv : PublicValues} (hnulls : pv.nullifiers = e.nullifiers)
    (hcloses : pv.cdpCloses = e.cdpCloses) {s t : R.St} (h : R.Hears now pv s t) {r : Receipt}
    (hfarm : r.farm = controller32 R.address) (hstamp : R.stamped t (r.leaf C.toKeccak) = true) :
    r.nullifier C.toKeccak ∉ pv.nullifiers := by
  intro hmem
  rw [hnulls] at hmem
  obtain ⟨c, hc, hclose⟩ := he.unbonds r hmem
  obtain rfl : c = R.address := controller32_injective (hc.symm.trans hfarm)
  exact r.leaf_ne_zero hC ((h.stamped hstamp).2 _ (hcloses ▸ hclose) rfl rfl rfl)

/-! ## One step -/

variable {w w' : World R}

/-- Marks beside the receipt's nullifier. -/
theorem Held.mono {pool pool' : ConfidentialPool.Storage} {leaves more spent : List Word} {x : Word} {r : Receipt}
    (h : Held R pool leaves x r) (hmarks : pool'.nullifierSpent = marked pool.nullifierSpent spent)
    (hnot : r.nullifier C.toKeccak ∉ spent) : Held R pool' (leaves ++ more) x r :=
  { h with
    leaf_mem := List.mem_append_left _ h.leaf_mem
    unspent := by simp [hmarks, marked, h.unspent, hnot] }

theorem Call.delta_batch {c : Call} {pv : PublicValues} (hc : c.batch = some pv) (s : ConfidentialPool.Storage) :
    (c.delta D s).nullifiers = pv.nullifiers ∧ (c.delta D s).positions = pv.positions ∧ c.leaves = pv.leaves := by
  simp [Call.delta, Call.leaves, hc, PublicValues.delta]

theorem Call.delta_none {c : Call} (hc : c.batch = none) (s : ConfidentialPool.Storage) :
    (c.delta D s).nullifiers = [] ∧ (c.delta D s).positions = [] ∧ c.leaves = [] := by
  simp [Call.delta, Call.leaves, hc]

/-- **A batch of the guest.** -/
theorem World.Sound.settle (hC : C.toKeccak.Ideal) (hw : w.Sound D) {env : Env} {c : Call}
    {H : Header} {memoHashes : List Word} {ops : List (Op C.toKeccak)} {pv : PublicValues} {pool : ConfidentialPool.Storage}
    {controller : Option R.St} (hbatch : c.batch = some pv) (hmain : main C H memoHashes ops = some pv)
    (hforeign : ∀ op ∈ ops, ∀ x ∈ op.foreign, x.controller = R.address.val → x.debtValue ≠ 0)
    (hsane : ∀ op ∈ ops, ∀ r, op.bonds C H = some r → r.farm = controller32 R.address → Sane C w.pool r)
    (hok : c.prog D env w.pool = .ok () pool) (hheard : R.Heard w.now pv w.controller controller) :
    World.Sound D ⟨pool, controller, w.now⟩ := by
  obtain ⟨e, he, hnulls, hleaves, hmints, hcloses, hpositions⟩ := main_lawful hC hmain
    (B := fun r => r.farm = controller32 R.address → Sane C w.pool r)
    (F := fun x => x.controller = R.address.val → x.debtValue ≠ 0) hsane hforeign
  have happlied := (call_applied hok).1
  obtain ⟨hdn, hdp, hdl⟩ := Call.delta_batch (D := D) hbatch w.pool
  have hspent := happlied.nullifiers.2
  have hpos := happlied.positions.2
  rw [hdn] at hspent
  rw [hdp] at hpos
  obtain ⟨leaves, htree, hstamps⟩ := hw.stamps
  refine ⟨call_floored hw.floored hok, fun r hr => ?_, fun t ht => ?_, leaves ++ pv.leaves, ?_, fun t ht x hx => ?_⟩
  · show pool.nullifierSpent _ = true
    rw [hspent, marked_eq_true]
    have hr : pool.cdpPositionSpent (r.nullifier C.toKeccak) = true := hr
    rw [hpos, marked_eq_true] at hr
    refine hr.imp (hw.positions r) fun hmem => ?_
    rw [hnulls]
    exact he.positions r (hpositions ▸ hmem)
  · obtain rfl : controller = some t := ht
    cases hs : w.controller with
    | none => rw [hs] at hheard; exact hheard.elim
    | some s =>
      rw [hs] at hheard
      exact ReceiptController.Hears.sound he hmints hcloses hheard (hw.controller s hs)
  · have h := htree.insertLeaves (call_notes hok)
    rwa [hdl] at h
  · obtain rfl : controller = some t := ht
    cases hs : w.controller with
    | none => rw [hs] at hheard; exact hheard.elim
    | some s =>
      rw [hs] at hheard
      have hheard : R.Hears w.now pv s t := hheard
      obtain hold | ⟨m, hm, haddr, hsentinel, hdebt, hsnapshot⟩ := (hheard.stamped hx).1
      · obtain ⟨r, hheld, hkey⟩ := hstamps s hs x hold
        refine ⟨r, hheld.mono hspent (hheard.kept hC he hnulls hcloses hheld.farm_eq ?_), hkey⟩
        rwa [hheld.leaf_eq]
      · obtain ⟨a, r, hB, hbond⟩ | ⟨a, r, asset, reward, rfl, -, hpos⟩ | hother := he.mints m (hmints ▸ hm)
        · obtain rfl := hbond.mint_eq
          obtain rfl : a = R.address := Fin.ext haddr
          obtain rfl : r.leaf C.toKeccak = x := uintOfWord_injective hsnapshot
          have hsane := hB hbond.farm_eq
          refine ⟨r, ⟨rfl, hbond.farm_eq, List.mem_append_right _ (hleaves ▸ hbond.leaf_mem), hbond.shares_pos, ?_⟩, hsane.1⟩
          have hnot := hheard.kept hC he hnulls hcloses hbond.farm_eq hx
          simp [hspent, marked, hsane.2, hnot]
        · exact absurd hdebt hpos.ne'
        · exact absurd hsentinel hother

/-- **A step** whose bonds are sane keeps the world sound. -/
theorem Step.sound (hC : C.toKeccak.Ideal) (h : Step C D R (Sane C) w w') (hw : w.Sound D) : w'.Sound D := by
  cases h with
  | settle env c H memoHashes ops _ hbatch hmain hforeign hsane hok hheard =>
    exact hw.settle hC hbatch hmain hforeign hsane hok hheard
  | call env c _ hbatch hok =>
    have happlied := (call_applied hok).1
    obtain ⟨hdn, hdp, hdl⟩ := Call.delta_none (D := D) hbatch w.pool
    have hspent := happlied.nullifiers.2
    have hpos := happlied.positions.2
    rw [hdn] at hspent
    rw [hdp, marked_nil] at hpos
    obtain ⟨leaves, htree, hstamps⟩ := hw.stamps
    have hnotes := htree.insertLeaves (call_notes hok)
    rw [hdl] at hnotes
    refine ⟨call_floored hw.floored hok, fun r hr => ?_, hw.controller, leaves ++ [], hnotes, fun s hs x hx => ?_⟩
    · show _ = true
      rw [hspent, marked_nil]
      exact hw.positions r (hpos ▸ hr)
    · obtain ⟨r, hheld, hkey⟩ := hstamps s hs x hx
      exact ⟨r, hheld.mono hspent List.not_mem_nil, hkey⟩
  | deploy hnone hfresh =>
    obtain ⟨leaves, htree, -⟩ := hw.stamps
    refine ⟨hw.floored, hw.positions, fun t ht => ?_, leaves, htree, fun t ht x hx => ?_⟩
    · cases ht
      exact R.fresh_sound hfresh
    · cases ht
      rw [R.fresh_stamped hfresh] at hx
      cases hx
  | own hs hown =>
    obtain ⟨leaves, htree, hstamps⟩ := hw.stamps
    refine ⟨hw.floored, hw.positions, fun t ht => ?_, leaves, htree, fun t ht x hx => ?_⟩
    · cases ht
      exact R.own_sound (hw.controller _ hs) hown
    · cases ht
      exact hstamps _ hs x (R.own_stamped hown hx)
  | idle hnone _ =>
    refine ⟨hw.floored, hw.positions, fun t ht => ?_, ?_⟩
    · rw [hnone] at ht
      cases ht
    · obtain ⟨leaves, htree, -⟩ := hw.stamps
      refine ⟨leaves, htree, fun t ht => ?_⟩
      rw [hnone] at ht
      cases ht

/-- The pool was deployed, and the controller is not there yet. -/
structure World.Initial (D : Deployment) (w : World R) : Prop where
  deployed : Deployed D w.pool
  absent : w.controller = none

theorem World.Initial.sound (h : w.Initial D) : w.Sound D where
  floored := h.deployed.floored
  positions r hr := by
    rw [h.deployed.unspent.2.2.2.2.1] at hr
    cases hr
  controller s hs := by
    rw [h.absent] at hs
    cases hs
  stamps := by
    refine ⟨[], h.deployed.holds, fun s hs => ?_⟩
    rw [h.absent] at hs
    cases hs

/-- The worlds that steps reach. -/
def Reachable (C : Proofs) (D : Deployment) (R : ReceiptController C.toKeccak) (P : ConfidentialPool.Storage → Receipt → Prop)
    (w : World R) : Prop := ∃ w₀ : World R, w₀.Initial D ∧ Relation.ReflTransGen (Step C D R P) w₀ w

/-- **Every run** whose bonds are sane is sound. -/
theorem Reachable.sound (hC : C.toKeccak.Ideal) (h : Reachable C D R (Sane C) w) : w.Sound D := by
  obtain ⟨w₀, h₀, hsteps⟩ := h
  induction hsteps with
  | refl => exact h₀.sound
  | tail _ hstep ih => exact hstep.sound hC ih

end SettleGuest

end Tacit
