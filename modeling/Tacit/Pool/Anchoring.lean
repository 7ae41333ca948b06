import Tacit.Pool.ReflectionLib
import Tacit.Relay.Difficulty
/-!
# Reflection batches are anchored in the relay's chain

The ancestry walk is spread over calls, and the relay moves between them. What survives is the parent links
of stored blocks above the relay's anchor: a walk from a matured block to a height above the last reflected
one only takes such links (`Path`), so cursor and checkpoint stay below the anchors they were walked from,
whatever the relay does in between.
-/
namespace Tacit

open Prog ReflectionLib

/-- `h` is `a` or below it on the relay's parent links. -/
def Relay.AncestorOrEq (relay : Relay) (h a : Word) : Prop := ∃ n, relay.ancestor n a = h

namespace Relay

variable {dsha256 : Bytes → Word} {s t : Relay} {a b h : Word}

theorem ancestor_succ' (n : Nat) (a : Word) : s.ancestor (n + 1) a = (s.blocks (s.ancestor n a)).parent :=
  Function.iterate_succ_apply' _ n a

theorem ancestor_add (m n : Nat) (a : Word) : s.ancestor (m + n) a = s.ancestor m (s.ancestor n a) :=
  Function.iterate_add_apply _ m n a

theorem AncestorOrEq.trans (h₁ : s.AncestorOrEq h b) (h₂ : s.AncestorOrEq b a) : s.AncestorOrEq h a := by
  obtain ⟨m, rfl⟩ := h₁
  obtain ⟨n, rfl⟩ := h₂
  exact ⟨m + n, ancestor_add m n a⟩

/-- `h` is reached from `a` over stored blocks above the anchor: links no later call can change. -/
def Path (s : Relay) (a h : Word) : Prop :=
  ∃ n, s.ancestor n a = h ∧ ∀ i < n, s.Stored (s.ancestor i a) ∧ s.ancestor i a ≠ s.anchorTip

theorem Path.refl (s : Relay) (a : Word) : s.Path a a := ⟨0, rfl, fun _ hi => absurd hi (Nat.not_lt_zero _)⟩

theorem Path.ancestorOrEq (p : s.Path a h) : s.AncestorOrEq h a := by
  obtain ⟨n, hn, -⟩ := p
  exact ⟨n, hn⟩

theorem Path.trans (p : s.Path a b) (q : s.Path b h) : s.Path a h := by
  obtain ⟨m, rfl, hm⟩ := p
  obtain ⟨n, rfl, hn⟩ := q
  refine ⟨n + m, ancestor_add n m a, ?_⟩
  intro i hi
  by_cases him : i < m
  · exact hm i him
  · obtain ⟨j, rfl⟩ := Nat.exists_eq_add_of_le' (not_lt.1 him)
    rw [ancestor_add]
    exact hn j (by omega)

/-- A path survives every growth of the relay. -/
theorem Path.grows (g : Grows s t) (p : s.Path a h) : t.Path a h := by
  obtain ⟨n, hn, hpath⟩ := p
  have same : ∀ i ≤ n, t.ancestor i a = s.ancestor i a := by
    intro i hi
    induction i with
    | zero => rfl
    | succ i ih =>
      rw [ancestor_succ', ancestor_succ', ih (by omega), g.blocks _ (hpath i (by omega)).1]
  refine ⟨n, (same n le_rfl).trans hn, ?_⟩
  intro i hi
  rw [same i (by omega), g.anchorTip]
  exact ⟨g.stored (hpath i hi).1, (hpath i hi).2⟩

/-- Where nothing is stored above the anchor, a path is empty. -/
theorem Path.eq_of_only (honly : ∀ b, s.Stored b → b = s.anchorTip) (p : s.Path a h) : h = a := by
  obtain ⟨n, hn, hpath⟩ := p
  cases n with
  | zero => exact hn.symm
  | succ n =>
    obtain ⟨h₁, h₂⟩ := hpath 0 (by omega)
    exact absurd (honly _ h₁) h₂

/-- **Any call** of the relay leaves every path in place. -/
theorem Path.step (hH : HeaderHash dsha256) (hs : Sound dsha256 s) (k : Call) (p : s.Path a h) :
    ((k.prog dsha256).call s).Path a h := by
  rcases call_cases (k.prog dsha256) s with e | ⟨u, hok⟩
  · rw [e]; exact p
  · generalize (k.prog dsha256).call s = t at hok ⊢
    cases k with
    | genesis sender epochStart target startTimestamp tipHash tipHeight tipWork =>
      cases hs with
      | fresh m d =>
        have e : h = a := p.eq_of_only fun b hb =>
          absurd (rfl : ((Relay.deploy m d).blocks b).work = 0) hb
        rw [e]; exact Path.refl t a
      | live hi I => rw [(genesis_initialized hok).1] at hi; cases hi
    | seedAnchorHistory sender ts hashes times =>
      obtain ⟨hi, htip, -, -⟩ := seedAnchorHistory_ok hok
      have e : h = a := p.eq_of_only fun b hb => (hs.inv hi).only_anchor hH htip hb
      rw [e]; exact Path.refl t a
    | advanceTip now headers =>
      have I := hs.inv (advanceTip_initialized hok)
      exact p.grows (advanceTip_spec hH I hok).2.1

/-- A walk that stays above the anchor's height is a path. -/
theorem Inv.path_of_height (hH : HeaderHash dsha256) (I : Inv dsha256 s) {n : Nat} (h0 : (s.blocks a).height ≠ 0)
    (hn : (s.blocks s.anchorTip).height + n ≤ (s.blocks a).height) : s.Path a (s.ancestor n a) := by
  have ha : s.Stored a := by
    by_contra hns
    exact h0 (I.unstored a hns)
  obtain ⟨-, -, hchain⟩ := I.toTree.chain hH ha
  refine ⟨n, rfl, ?_⟩
  intro i hi
  obtain ⟨h₁, h₂⟩ := hchain i (by omega)
  refine ⟨h₁, fun e => ?_⟩
  rw [e] at h₂
  omega

/-- A height above zero is at least the anchor's. -/
theorem Inv.anchor_height_le (hH : HeaderHash dsha256) (I : Inv dsha256 s) (h0 : (s.blocks b).height ≠ 0) :
    (s.blocks s.anchorTip).height ≤ (s.blocks b).height := by
  have hb : s.Stored b := by
    by_contra hns
    exact h0 (I.unstored b hns)
  exact (I.toTree.chain hH hb).1

end Relay

namespace ReflectionLib

variable {dsha256 : Bytes → Word} {relay : Relay} {a a' : Ancestry} {confirmations : Nat}

/-! ## What the walks find -/

theorem maturedFrom_eq : ∀ {n : Nat} {b m : Word}, maturedFrom relay n b = some m → m = relay.ancestor n b
  | 0, b, m, h => by
    simp only [maturedFrom, Option.some.injEq] at h
    exact h.symm
  | n + 1, b, m, h => by
    rw [maturedFrom] at h
    split at h
    · cases h
    · rw [Relay.ancestor_succ]
      exact maturedFrom_eq h

theorem walkBack_eq : ∀ {n : Nat} {b m : Word}, walkBack relay n b = some m → m = relay.ancestor n b
  | 0, b, m, h => by
    simp only [walkBack, Option.some.injEq] at h
    exact h.symm
  | n + 1, b, m, h => by
    rw [walkBack] at h
    split at h
    · cases h
    · rw [Relay.ancestor_succ]
      exact walkBack_eq h

theorem findsBelow_spec {h : Word} : ∀ {n : Nat} {b : Word}, findsBelow relay h n b = true → relay.AncestorOrEq h b
  | 0, b, hf => by cases hf
  | n + 1, b, hf => by
    rw [findsBelow] at hf
    split at hf
    · cases hf
    · split at hf
      · next e => exact ⟨1, e⟩
      · obtain ⟨k, hk⟩ := findsBelow_spec hf
        exact ⟨k + 1, (Relay.ancestor_succ k b).trans hk⟩

theorem isAnchorOrAncestor_spec {h anchor : Word} (hf : isAnchorOrAncestor relay h anchor = true) :
    relay.AncestorOrEq h anchor := by
  unfold isAnchorOrAncestor at hf
  split at hf
  · cases hf
  · split at hf
    · next e => exact ⟨0, e.symm⟩
    · exact findsBelow_spec hf

/-! ## The cursor and the checkpoint -/

/-- The cursor is on a path from its recorded anchor, the checkpoint on one from its own. -/
structure Walked (relay : Relay) (a : Ancestry) : Prop where
  cursor : relay.Path a.cursorAnchor a.cursor
  checkpoint : relay.Path a.anchor a.checkpoint

theorem walkSteps_le (height target : Nat) : walkSteps height target ≤ height - target := by
  unfold walkSteps
  simp only
  split_ifs <;> omega

/-- The walk starts on a path from its anchor, which is the matured one or below it. -/
theorem walkStart_spec (W : Walked relay a) (target : Nat) (matured : Word) :
    relay.Path (walkStart relay a target matured).2 (walkStart relay a target matured).1 ∧
      relay.AncestorOrEq (walkStart relay a target matured).2 matured := by
  unfold walkStart
  split
  · exact ⟨Relay.Path.refl relay matured, 0, rfl⟩
  · next h =>
    simp only [not_or, Bool.not_eq_false] at h
    exact ⟨W.cursor, isAnchorOrAncestor_spec h.2.2.2⟩

/-- **One call of the walk**: the invariant stays, and a checkpoint it installs is an ancestor-or-equal of an
anchor that is the matured one or an ancestor of it. -/
theorem advanceAncestry_spec (hH : HeaderHash dsha256) (hs : Relay.Sound dsha256 relay) (W : Walked relay a)
    {last : Word} (hok : advanceAncestry relay confirmations last a = .ok a') :
    Walked relay a' ∧ ∃ matured, maturedAnchor relay confirmations = some matured ∧
      ((a'.checkpoint = a.checkpoint ∧ a'.anchor = a.anchor) ∨
        (relay.AncestorOrEq a'.checkpoint a'.anchor ∧ relay.AncestorOrEq a'.anchor matured)) := by
  simp only [advanceAncestry, except_bind_eq_ok, refuse_eq_ok, need_eq_ok, uint256_eq_some, exists_const,
    except_pure_eq_ok] at hok
  obtain ⟨hlast, target, ⟨-, htarget⟩, matured, hmatured, walk, hwalk, rfl⟩ := hok
  have I : Relay.Inv dsha256 relay := by
    cases hs with
    | fresh m d => exact absurd rfl hlast
    | live _ I => exact I
  have hlow := I.anchor_height_le hH hlast
  obtain ⟨hstart, hanchor⟩ := walkStart_spec W target matured
  set start := walkStart relay a target matured
  set height := (relay.blocks start.1).height with hheight
  have hsteps := walkSteps_le height target
  have hmore : relay.Path start.1 walk := by
    rw [walkBack_eq hwalk]
    by_cases h0 : walkSteps height target = 0
    · rw [h0]; exact Relay.Path.refl _ _
    · -- every node walked from is above the target, so above the relay's anchor
      have hlag : reflectionMaxLag = 2016 := rfl
      exact I.path_of_height hH (by omega) (by omega)
  have hpath := hstart.trans hmore
  split
  · exact ⟨⟨Relay.Path.refl _ _, hpath⟩, matured, hmatured, Or.inr ⟨hpath.ancestorOrEq, hanchor⟩⟩
  · exact ⟨⟨hpath, W.checkpoint⟩, matured, hmatured, Or.inl ⟨rfl, rfl⟩⟩

/-- **One batch**: it continues `last`, and its tip is the matured anchor or an ancestor of it. -/
theorem anchorReflection_spec (W : Walked relay a) {last prev tip : Word}
    (hok : anchorReflection relay confirmations a last prev tip = .ok ()) :
    prev = last ∧ ∃ matured, maturedAnchor relay confirmations = some matured ∧ relay.AncestorOrEq tip matured := by
  simp only [anchorReflection, except_bind_eq_ok, refuse_eq_ok, need_eq_ok, exists_const] at hok
  obtain ⟨hprev, matured, hmatured, hok⟩ := hok
  refine ⟨not_not.1 hprev, matured, hmatured, ?_⟩
  split at hok
  · exact isAnchorOrAncestor_spec (by simpa using hok)
  · simp only [except_bind_eq_ok, refuse_eq_ok, exists_const] at hok
    obtain ⟨-, hok⟩ := hok
    split at hok
    · exact isAnchorOrAncestor_spec (by simpa using hok)
    · -- below the checkpoint, which is below an anchor that is still canonical
      simp only [refuse_eq_ok, Bool.not_eq_false, Bool.and_eq_true] at hok
      obtain ⟨⟨-, hanchor⟩, htip⟩ := hok
      exact (isAnchorOrAncestor_spec htip).trans (W.checkpoint.ancestorOrEq.trans (isAnchorOrAncestor_spec hanchor))

/-! ## Attests -/

/-- The tip a batch must continue: the last attested one, or in a migration cycle the predecessor's. -/
def Continues (cfg : Config) (s : Storage) (prev : Word) : Prop :=
  match cfg.predecessor, s.generationalRebaseSettled with
  | some pred, false => prev = pred.handoffReflectionTip ∨ prev = pred.attestedReflectionTip
  | _, _ => prev = s.lastReflectionBlockHash

variable {K : Keccak} {cfg : Config} {verified : Bool} {r : BitcoinRelayPublicValues} {s t : Storage}
  {metas : List AssetMeta}

theorem continuity_spec {resumed : Word × Bool} (hok : continuity K cfg r s = .ok resumed) :
    Continues cfg s resumed.1 := by
  unfold continuity at hok
  unfold Continues
  cases hp : cfg.predecessor with
  | none =>
    simp only [hp, except_bind_eq_ok, refuse_eq_ok, except_pure_eq_ok] at hok ⊢
    obtain ⟨-, -, -, -, rfl⟩ := hok
    rfl
  | some pred =>
    cases hg : s.generationalRebaseSettled with
    | true =>
      simp only [hp, hg, except_bind_eq_ok, refuse_eq_ok, except_pure_eq_ok] at hok ⊢
      obtain ⟨-, -, -, -, rfl⟩ := hok
      rfl
    | false =>
      simp only [hp, hg] at hok ⊢
      split at hok
      · cases hok; exact Or.inl rfl
      · split at hok
        · cases hok; exact Or.inr rfl
        · cases hok

theorem attestChecks_spec {resumed : Word × Bool} (hok : attestChecks K cfg verified r s = .ok resumed) :
    continuity K cfg r s = .ok resumed := by
  simp only [attestChecks, except_bind_eq_ok, refuse_eq_ok, except_pure_eq_ok, exists_const] at hok
  obtain ⟨-, -, -, -, resumed', h, -, -, -, -, -, -, -, rfl⟩ := hok
  exact h

/-- What an accepted attest did. -/
theorem attest_ok (hok : attest K cfg verified r s = .ok metas t) :
    ∃ resumed last, attestChecks K cfg verified r s = .ok resumed ∧ anchored cfg r resumed.1 s = .ok last ∧
      (∀ f ∈ r.cbtcLocksFolded, f.vBtc ≠ 0 ∧ f.vBtc < 2 ^ 64) ∧
      t.lastReflectionBlockHash = last ∧ t.ancestry = s.ancestry ∧
      t.locks = r.cbtcLocksRedeemed.foldl Locks.redeem
        (r.cbtcLocksSpent.foldl Locks.spend (r.cbtcLocksFolded.foldl Locks.register s.locks)) ∧
      t.overflow = r.overflowRoots.foldl (Overflow.enqueue · (if r.overflowRootLevel = 0 then 1 else r.overflowRootLevel))
        s.overflow := by
  simp only [attest, bind_eq_ok, get_eq_ok, check_eq_ok, ofExcept_eq_ok, modify_eq_ok, pure_eq_ok,
    forEach_check_eq_ok] at hok
  obtain ⟨s₀, _, ⟨rfl, rfl⟩, resumed, _, ⟨hchecks, rfl⟩, last, _, ⟨hanchored, rfl⟩, _, _, ⟨hvalues, rfl⟩, _, _, ⟨-, rfl⟩,
    _, _, rfl, -, rfl⟩ := hok
  refine ⟨resumed, last, hchecks, hanchored, ?_, rfl, rfl, rfl, rfl⟩
  intro f hf
  have := hvalues f hf
  omega

theorem attest_anchored {relay : Relay} (hrelay : cfg.headerRelay = some relay) (W : Walked relay s.ancestry)
    (hok : attest K cfg verified r s = .ok metas t) :
    Continues cfg s r.bitcoinPrevHash ∧ t.lastReflectionBlockHash = r.bitcoinTipHash ∧ t.ancestry = s.ancestry ∧
      ∃ matured, maturedAnchor relay cfg.reflectionConfirmations = some matured ∧
        relay.AncestorOrEq r.bitcoinTipHash matured := by
  obtain ⟨resumed, last, hchecks, hanchored, -, hlast, hancestry, -, -⟩ := attest_ok hok
  have hcont := continuity_spec (attestChecks_spec hchecks)
  simp only [anchored, hrelay, except_bind_eq_ok, except_pure_eq_ok] at hanchored
  obtain ⟨_, hanchor, rfl⟩ := hanchored
  obtain ⟨hprev, hmatured⟩ := anchorReflection_spec W hanchor
  exact ⟨hprev ▸ hcont, hlast, hancestry, hmatured⟩

/-! ## Histories -/

/-- The relay and the attest storage of a pool over it. -/
structure World where
  relay : Relay
  lib : Storage

/-- A transaction: a relay call, a call of the walk, or an attest with any inputs. -/
inductive Act
  | relay (k : Relay.Call)
  | advanceReflectionAncestry
  | attest (K : Keccak) (cfg : Config) (verified : Bool) (r : BitcoinRelayPublicValues)

/-- The pool's immutables in an attest's configuration. -/
def Config.over (cfg : Config) (relay : Relay) (confirmations : Nat) : Config :=
  { cfg with headerRelay := some relay, reflectionConfirmations := confirmations }

def Act.run (dsha256 : Bytes → Word) (confirmations : Nat) (w : World) : Act → World
  | .relay k => { w with relay := (k.prog dsha256).call w.relay }
  | .advanceReflectionAncestry =>
    { w with lib := (ReflectionLib.advanceReflectionAncestry w.relay confirmations).call w.lib }
  | .attest K cfg verified r =>
    { w with lib := (ReflectionLib.attest K (cfg.over w.relay confirmations) verified r).call w.lib }

/-- Any history of a pool deployed over a relay at any point of the relay's own. -/
inductive World.Reachable (dsha256 : Bytes → Word) (confirmations : Nat) : World → Prop
  | deploy {relay : Relay} {lib : Storage} : Relay.Reachable dsha256 relay → lib.ancestry = ⟨0, 0, 0, 0⟩ →
      World.Reachable dsha256 confirmations ⟨relay, lib⟩
  | act {w : World} (a : Act) : World.Reachable dsha256 confirmations w →
      World.Reachable dsha256 confirmations (a.run dsha256 confirmations w)

theorem World.Reachable.relay_reachable {w : World} (hw : World.Reachable dsha256 confirmations w) :
    Relay.Reachable dsha256 w.relay := by
  induction hw with
  | deploy hr _ => exact hr
  | act a _ ih =>
    cases a with
    | relay k => exact .call k ih
    | advanceReflectionAncestry => exact ih
    | attest K cfg verified r => exact ih

theorem advanceReflectionAncestry_ok {u : Unit}
    (hok : advanceReflectionAncestry relay confirmations s = .ok u t) :
    ∃ a, advanceAncestry relay confirmations s.lastReflectionBlockHash s.ancestry = .ok a ∧
      t = { s with ancestry := a } := by
  simp only [advanceReflectionAncestry, bind_eq_ok, get_eq_ok, ofExcept_eq_ok, modify_eq_ok] at hok
  obtain ⟨s₀, _, ⟨rfl, rfl⟩, a, _, ⟨ha, rfl⟩, rfl⟩ := hok
  exact ⟨a, ha, rfl⟩

/-- The walk's invariant over every interleaving. -/
theorem World.Reachable.walked (hH : HeaderHash dsha256) {w : World} (hw : World.Reachable dsha256 confirmations w) :
    Walked w.relay w.lib.ancestry := by
  induction hw with
  | deploy _ h0 => rw [h0]; exact ⟨Relay.Path.refl _ _, Relay.Path.refl _ _⟩
  | @act w a hw ih =>
    have hs := hw.relay_reachable.sound hH
    cases a with
    | relay k => exact ⟨ih.cursor.step hH hs k, ih.checkpoint.step hH hs k⟩
    | advanceReflectionAncestry =>
      apply call_keeps (I := fun lib : Storage => Walked w.relay lib.ancestry) ih
      intro u t hok
      obtain ⟨a, ha, rfl⟩ := advanceReflectionAncestry_ok hok
      exact (advanceAncestry_spec hH hs ih ha).1
    | attest K cfg verified r =>
      apply call_keeps (I := fun lib : Storage => Walked w.relay lib.ancestry) ih
      intro metas t hok
      obtain ⟨-, -, -, -, -, -, hancestry, -, -⟩ := attest_ok hok
      rw [hancestry]
      exact ih

/-- **Reflection anchoring.** In every reachable world: the cursor is an ancestor-or-equal of its recorded
anchor and the checkpoint of its own; an accepted batch continues the last attested tip and its new tip is
the matured anchor or an ancestor of it; a checkpoint that a call installs is an ancestor-or-equal of an
anchor that is matured or below the matured one. -/
theorem reflection_anchoring (hH : HeaderHash dsha256) {w : World} (hw : World.Reachable dsha256 confirmations w) :
    (w.relay.AncestorOrEq w.lib.ancestry.cursor w.lib.ancestry.cursorAnchor ∧
      w.relay.AncestorOrEq w.lib.ancestry.checkpoint w.lib.ancestry.anchor) ∧
    (∀ K cfg verified r metas t,
      ReflectionLib.attest K (cfg.over w.relay confirmations) verified r w.lib = .ok metas t →
      Continues cfg w.lib r.bitcoinPrevHash ∧ t.lastReflectionBlockHash = r.bitcoinTipHash ∧
      ∃ matured, maturedAnchor w.relay confirmations = some matured ∧
        (r.bitcoinTipHash = matured ∨ w.relay.AncestorOrEq r.bitcoinTipHash matured)) ∧
    ∀ u t, ReflectionLib.advanceReflectionAncestry w.relay confirmations w.lib = .ok u t →
      t.lastReflectionBlockHash = w.lib.lastReflectionBlockHash ∧
      ∃ matured, maturedAnchor w.relay confirmations = some matured ∧
        ((t.ancestry.checkpoint = w.lib.ancestry.checkpoint ∧ t.ancestry.anchor = w.lib.ancestry.anchor) ∨
          (w.relay.AncestorOrEq t.ancestry.checkpoint t.ancestry.anchor ∧
            w.relay.AncestorOrEq t.ancestry.anchor matured)) := by
  have W := hw.walked hH
  refine ⟨⟨W.cursor.ancestorOrEq, W.checkpoint.ancestorOrEq⟩, ?_, ?_⟩
  · intro K cfg verified r metas t hok
    obtain ⟨hcont, hlast, -, matured, hmatured, htip⟩ := attest_anchored rfl W hok
    exact ⟨hcont, hlast, matured, hmatured, Or.inr htip⟩
  · intro u t hok
    obtain ⟨a, ha, rfl⟩ := advanceReflectionAncestry_ok hok
    exact ⟨rfl, (advanceAncestry_spec hH (hw.relay_reachable.sound hH) W ha).2⟩

/-! A batch over the relay's one-header run, one confirmation deep. -/

def demoConfig : Config where
  self := 5
  headerRelay := none
  predecessor := none
  bitcoinRelayVkey := wordOfNat 1
  chainBinding := 0
  reflectionConfirmations := 0
  bitcoinConsumedCount := 0
  crossOutCount := 0

def demoBatch : BitcoinRelayPublicValues where
  priorDigest := 0
  bitcoinPoolRoot := wordOfNat 1
  bitcoinSpentRoot := wordOfNat 1
  bitcoinBurnRoot := wordOfNat 1
  bitcoinHeight := 5
  newDigest := wordOfNat 1
  bitcoinPrevHash := wordOfNat 9
  bitcoinTipHash := Relay.demoAnchor
  ethPoolReflected := wordOfNat 5
  cbtcBackingSats := 0
  cbtcLocksFolded := []
  cbtcLocksSpent := []
  cbtcLocksRedeemed := []
  consumedCount := 0
  crossOutCount := 0
  foldedCrossOutCount := 0
  attestedAssetMetas := []
  btcCallsFolded := []
  rebasedFromDigest := 0
  chainBinding := 0
  overflowRoots := []
  overflowRootLevel := 0

def demoWorld : World :=
  ⟨Relay.submitAll Relay.demoHash Relay.demoRelay [(2000, Relay.demoHeader)], Storage.deployed 0 (wordOfNat 9)⟩

/-- Non-vacuity: a batch ending at the matured anchor is accepted. -/
theorem reflection_anchoring_one_batch :
    ∃ metas t, attest codeKeccak (demoConfig.over demoWorld.relay 1) true demoBatch demoWorld.lib = .ok metas t ∧
      t.lastReflectionBlockHash = Relay.demoAnchor ∧
      ∃ matured, maturedAnchor demoWorld.relay 1 = some matured ∧
        (Relay.demoAnchor = matured ∨ demoWorld.relay.AncestorOrEq Relay.demoAnchor matured) := by
  have hr : Relay.Reachable Relay.demoHash demoWorld.relay :=
    .call (.advanceTip 2000 Relay.demoHeader) Relay.demoRelay_reachable
  obtain ⟨metas, hok⟩ := ok_of_accepts (m := attest codeKeccak (demoConfig.over demoWorld.relay 1) true demoBatch)
    (s := demoWorld.lib) (by decide +kernel)
  have h := (reflection_anchoring Relay.demoHash_ideal
    (World.Reachable.deploy hr rfl : World.Reachable _ 1 demoWorld)).2.1 _ _ _ _ _ _ hok
  exact ⟨metas, _, hok, h.2.1, h.2.2⟩

end ReflectionLib

end Tacit
