import Mathlib.Logic.Relation
import Tacit.Relay.State
/-!
# Fork choice of the relay

The stored blocks are a tree over the anchor: the record of a block is a function of its header and of its
parent's record (`Extends`), and no call changes the record of a stored block (`Grows`). Storing a header
again therefore writes what is there, and the tip, which only a heavier chain moves, stays the heaviest block
of the tree.
-/
namespace Tacit

open Prog Relation

/-- `b` is the digest of a header over `a`. -/
def HeaderEdge (dsha256 : Bytes → Word) (a b : Word) : Prop := ∃ h, prevBlock h = a ∧ dsha256 h = b

/-- The double SHA-256: no collisions, no cycles through header links, no zero digest. -/
structure HeaderHash (dsha256 : Bytes → Word) : Prop where
  injective : Function.Injective dsha256
  acyclic : WellFounded (HeaderEdge dsha256)
  nonzero : ∀ h, dsha256 h ≠ 0

/-- What fork choice and retargeting read of a block besides its timestamp. -/
def Block.fork (v : Block) : Nat × Nat × Nat × Nat := (v.work, v.height, v.target, v.epochStartTs)

namespace Relay

variable {dsha256 : Bytes → Word} {now : Nat} {s t : Relay} {h : Bytes} {b : Word} {c c' : Cursor}

/-- `blockWork[b] != 0`. -/
def Stored (s : Relay) (b : Word) : Prop := (s.blocks b).work ≠ 0

/-- The record `advanceTip` writes for the header `h` over the parent's record `p`. -/
def Extends (maxTarget : Nat) (p : Block) (h : Bytes) (v : Block) : Prop :=
  ∃ target, expectedTarget maxTarget p (p.height + 1) = .ok target ∧
    v = {
      parent := prevBlock h
      work := p.work + workFromTarget target
      height := p.height + 1
      timestamp := headerTime h
      target := target
      epochStartTs := if (p.height + 1) % epochLength = 0 then headerTime h else p.epochStartTs }

theorem Extends.unique {maxTarget : Nat} {p v v' : Block} (hv : Extends maxTarget p h v)
    (hv' : Extends maxTarget p h v') : v = v' := by
  obtain ⟨t, ht, rfl⟩ := hv
  obtain ⟨t', ht', rfl⟩ := hv'
  rw [ht] at ht'
  cases ht'
  rfl

theorem workFromTarget_pos (target : Nat) : 0 < workFromTarget target := by
  unfold workFromTarget
  split
  · omega
  · exact Nat.succ_pos _

theorem Extends.work_lt {maxTarget : Nat} {p v : Block} (hv : Extends maxTarget p h v) : p.work < v.work := by
  obtain ⟨t, -, rfl⟩ := hv
  have := workFromTarget_pos t
  show p.work < p.work + workFromTarget t
  omega

/-! ## The tree of stored blocks -/

/-- Every stored block but the anchor extends a stored parent. -/
structure Tree (dsha256 : Bytes → Word) (s : Relay) : Prop where
  anchor : s.Stored s.anchorTip
  linked : ∀ b, s.Stored b → b ≠ s.anchorTip → ∃ h, dsha256 h = b ∧ s.Stored (prevBlock h) ∧
    Extends s.maxTarget (s.blocks (prevBlock h)) h (s.blocks b)
  unstored : ∀ b, ¬ s.Stored b → (s.blocks b).height = 0

/-- Later storages keep the record of every stored block. -/
structure Grows (s t : Relay) : Prop where
  maxTarget : t.maxTarget = s.maxTarget
  anchorTip : t.anchorTip = s.anchorTip
  genesisEpoch : t.genesisEpoch = s.genesisEpoch
  epochStartTimestamp : t.epochStartTimestamp = s.epochStartTimestamp
  initialized : t.initialized = s.initialized
  blocks : ∀ b, s.Stored b → t.blocks b = s.blocks b

theorem Grows.refl (s : Relay) : Grows s s := ⟨rfl, rfl, rfl, rfl, rfl, fun _ _ => rfl⟩

theorem Grows.stored (g : Grows s t) (hb : s.Stored b) : t.Stored b := by
  unfold Stored
  rw [g.blocks b hb]
  exact hb

theorem Grows.trans {u : Relay} (g : Grows s t) (g' : Grows t u) : Grows s u where
  maxTarget := g'.maxTarget.trans g.maxTarget
  anchorTip := g'.anchorTip.trans g.anchorTip
  genesisEpoch := g'.genesisEpoch.trans g.genesisEpoch
  epochStartTimestamp := g'.epochStartTimestamp.trans g.epochStartTimestamp
  initialized := g'.initialized.trans g.initialized
  blocks b hb := (g'.blocks b (g.stored hb)).trans (g.blocks b hb)

theorem Tree.descends (hH : HeaderHash dsha256) (T : Tree dsha256 s) (hb : s.Stored b) :
    ReflTransGen (HeaderEdge dsha256) s.anchorTip b := by
  induction b using hH.acyclic.induction with
  | _ b ih =>
    by_cases ha : b = s.anchorTip
    · rw [ha]
    · obtain ⟨h, rfl, hp, -⟩ := T.linked b hb ha
      exact (ih _ ⟨h, rfl, rfl⟩ hp).tail ⟨h, rfl, rfl⟩

/-- No header over a stored block hashes to the anchor. -/
theorem Tree.hash_ne_anchor (hH : HeaderHash dsha256) (T : Tree dsha256 s) (hp : s.Stored (prevBlock h)) :
    dsha256 h ≠ s.anchorTip := by
  intro e
  have hloop : TransGen (HeaderEdge dsha256) s.anchorTip s.anchorTip :=
    TransGen.tail' (T.descends hH hp) ⟨h, rfl, e⟩
  exact hH.acyclic.transGen.irrefl.irrefl _ hloop

/-- A stored block is the one its header gives over its parent. -/
theorem Tree.extends_of_stored (hH : HeaderHash dsha256) (T : Tree dsha256 s) (hp : s.Stored (prevBlock h))
    (hb : s.Stored (dsha256 h)) : Extends s.maxTarget (s.blocks (prevBlock h)) h (s.blocks (dsha256 h)) := by
  obtain ⟨h', he, -, hx⟩ := T.linked _ hb (T.hash_ne_anchor hH hp)
  rwa [hH.injective he] at hx

theorem Tree.anchor_work_le (hH : HeaderHash dsha256) (T : Tree dsha256 s) (hb : s.Stored b) :
    b = s.anchorTip ∨ (s.blocks s.anchorTip).work < (s.blocks b).work := by
  induction b using hH.acyclic.induction with
  | _ b ih =>
    by_cases ha : b = s.anchorTip
    · exact Or.inl ha
    · obtain ⟨h, rfl, hp, hx⟩ := T.linked b hb ha
      right
      rcases ih _ ⟨h, rfl, rfl⟩ hp with e | hlt
      · rw [← e]; exact hx.work_lt
      · exact hlt.trans hx.work_lt

@[simp] theorem setBlock_self (s : Relay) (b : Word) (v : Block) : (s.setBlock b v).blocks b = v := by
  simp [setBlock]

theorem setBlock_of_ne (s : Relay) {x b : Word} (v : Block) (hx : x ≠ b) : (s.setBlock b v).blocks x = s.blocks x := by
  simp [setBlock, hx]

theorem setBlock_eq_self {v : Block} (hv : v = s.blocks b) : s.setBlock b v = s := by
  rw [hv, setBlock, Function.update_eq_self]

/-- **Storing a header**: over a stored parent, the write is a no-op or adds a leaf to the tree. -/
theorem Tree.setBlock (hH : HeaderHash dsha256) (T : Tree dsha256 s) (hp : s.Stored (prevBlock h)) {v : Block}
    (hv : Extends s.maxTarget (s.blocks (prevBlock h)) h v) :
    Tree dsha256 (s.setBlock (dsha256 h) v) ∧ Grows s (s.setBlock (dsha256 h) v) ∧
      (s.Stored (dsha256 h) → s.setBlock (dsha256 h) v = s) := by
  by_cases hb : s.Stored (dsha256 h)
  · -- already stored: the tree fixes the record
    have he : s.setBlock (dsha256 h) v = s := setBlock_eq_self (hv.unique (T.extends_of_stored hH hp hb))
    rw [he]
    exact ⟨T, Grows.refl s, fun _ => rfl⟩
  · have old : ∀ x, s.Stored x → (s.setBlock (dsha256 h) v).blocks x = s.blocks x := by
      intro x hx
      exact setBlock_of_ne s v fun e => hb (e ▸ hx)
    have g : Grows s (s.setBlock (dsha256 h) v) := ⟨rfl, rfl, rfl, rfl, rfl, old⟩
    refine ⟨⟨g.stored T.anchor, ?_, ?_⟩, g, fun h' => absurd h' hb⟩
    · intro x hx hxa
      by_cases e : x = dsha256 h
      · subst e
        refine ⟨h, rfl, g.stored hp, ?_⟩
        rw [setBlock_self, old _ hp]
        exact hv
      · have hx' : s.Stored x := by
          unfold Stored at hx
          rwa [setBlock_of_ne s v e] at hx
        obtain ⟨h', rfl, hp', hx''⟩ := T.linked x hx' hxa
        refine ⟨h', rfl, g.stored hp', ?_⟩
        rw [old _ hx', old _ hp']
        exact hx''
    · intro x hx
      by_cases e : x = dsha256 h
      · subst e
        rw [Stored, setBlock_self] at hx
        exact absurd (Nat.ne_of_gt (Nat.zero_lt_of_lt hv.work_lt)) hx
      · rw [Stored, setBlock_of_ne s v e] at hx
        rw [setBlock_of_ne s v e]
        exact T.unstored x hx

/-! ## One submission -/

/-- The loop stands on a stored block, and nothing stored is heavier than the tip or that block. -/
structure Walking (dsha256 : Bytes → Word) (s : Relay) (c : Cursor) : Prop extends Tree dsha256 s where
  stored : s.Stored c.prevHash
  cumWork : c.cumWork = (s.blocks c.prevHash).work
  height : c.height = (s.blocks c.prevHash).height
  heaviest : ∀ b, (s.blocks b).work ≤ max s.tipWork c.cumWork

/-- What a run of the header loop does. -/
structure Accepted (dsha256 : Bytes → Word) (hs : List Bytes) (s t : Relay) (c' : Cursor) : Prop where
  walking : Walking dsha256 t c'
  grows : Grows s t
  only_blocks : t = { s with blocks := t.blocks }
  known : (∀ h ∈ hs, s.Stored (dsha256 h)) → t = s

theorem acceptHeader_ok (hc : c.cumWork = (s.blocks c.prevHash).work) (hh : c.height = (s.blocks c.prevHash).height)
    (hok : acceptHeader dsha256 now h c s = .ok c' t) :
    prevBlock h = c.prevHash ∧ ∃ v, Extends s.maxTarget (s.blocks c.prevHash) h v ∧ t = s.setBlock (dsha256 h) v ∧
      c' = ⟨dsha256 h, v.work, v.height⟩ := by
  simp only [acceptHeader, bind_eq_ok, get_eq_ok, check_eq_ok, orThrow_eq_ok, ofExcept_eq_ok, modify_eq_ok,
    pure_eq_ok, uint256_eq_some] at hok
  obtain ⟨_, _, ⟨rfl, rfl⟩, _, _, ⟨hprev, rfl⟩, height, _, ⟨⟨-, rfl⟩, rfl⟩, _, _, ⟨-, rfl⟩, target, _, ⟨htarget, rfl⟩,
    _, _, ⟨-, rfl⟩, _, _, ⟨-, rfl⟩, _, _, ⟨-, rfl⟩, _, _, ⟨-, rfl⟩, work, _, ⟨⟨-, rfl⟩, rfl⟩, _, _, rfl, rfl, rfl⟩ := hok
  have hprev' : prevBlock h = c.prevHash := by simpa using hprev
  refine ⟨hprev', _, ⟨target, ?_, rfl⟩, ?_, ?_⟩
  · rw [← hh, ← hprev']; exact htarget
  · rw [hc, hh, hprev']
  · rw [hc, hh]

theorem acceptHeader_spec (hH : HeaderHash dsha256) (W : Walking dsha256 s c)
    (hok : acceptHeader dsha256 now h c s = .ok c' t) : Accepted dsha256 [h] s t c' := by
  obtain ⟨hprev, v, hv, rfl, rfl⟩ := acceptHeader_ok W.cumWork W.height hok
  have hp : s.Stored (prevBlock h) := hprev ▸ W.stored
  obtain ⟨T, g, hknown⟩ := W.toTree.setBlock hH hp (v := v) (hprev ▸ hv)
  have hlt := hv.work_lt
  refine ⟨⟨T, ?_, ?_, ?_, ?_⟩, g, rfl, fun h' => hknown (h' h (by simp))⟩
  · show ((s.setBlock (dsha256 h) v).blocks (dsha256 h)).work ≠ 0
    rw [setBlock_self]; omega
  · show v.work = _
    rw [setBlock_self]
  · show v.height = _
    rw [setBlock_self]
  · intro b
    have hmax : (s.blocks b).work ≤ max s.tipWork c.cumWork := W.heaviest b
    rw [W.cumWork] at hmax
    show _ ≤ max s.tipWork v.work
    by_cases e : b = dsha256 h
    · rw [e, setBlock_self]; exact le_max_right _ _
    · rw [setBlock_of_ne s v e]; omega

theorem acceptHeaders_spec (hH : HeaderHash dsha256) : ∀ {hs : List Bytes} {s : Relay} {c : Cursor},
    Walking dsha256 s c → acceptHeaders dsha256 now hs c s = .ok c' t → Accepted dsha256 hs s t c'
  | [], s, c, W, hok => by
    obtain ⟨rfl, rfl⟩ := pure_eq_ok.1 hok
    exact ⟨W, Grows.refl _, rfl, fun _ => rfl⟩
  | h :: hs, s, c, W, hok => by
    obtain ⟨c₁, s₁, h₁, h₂⟩ := bind_eq_ok.1 hok
    have A := acceptHeader_spec hH W h₁
    have B := acceptHeaders_spec hH A.walking h₂
    refine ⟨B.walking, A.grows.trans B.grows, ?_, ?_⟩
    · have hA := A.only_blocks
      have hB := B.only_blocks
      rw [hA] at hB
      exact hB
    · intro hk
      have e : s₁ = s := A.known fun x hx => hk x (by simp_all)
      rw [← e]
      exact B.known fun x hx => e.symm ▸ hk x (by simp [hx])

/-- The relay between calls. The anchor carries the seeded epoch start and does not close its epoch. -/
structure Inv (dsha256 : Bytes → Word) (s : Relay) : Prop extends Tree dsha256 s where
  epochStart : (s.blocks s.anchorTip).epochStartTs = s.epochStartTimestamp s.genesisEpoch
  inside : ((s.blocks s.anchorTip).height + 1) % epochLength ≠ 0
  tip_stored : s.Stored s.tip
  tipWork : s.tipWork = (s.blocks s.tip).work
  tipHeight : s.tipHeight = (s.blocks s.tip).height
  heaviest : ∀ b, (s.blocks b).work ≤ s.tipWork

theorem Inv.anchor_of_grows (I : Inv dsha256 s) (g : Grows s t) :
    (t.blocks t.anchorTip).epochStartTs = t.epochStartTimestamp t.genesisEpoch ∧
      ((t.blocks t.anchorTip).height + 1) % epochLength ≠ 0 := by
  rw [g.anchorTip, g.blocks _ I.anchor, g.epochStartTimestamp, g.genesisEpoch]
  exact ⟨I.epochStart, I.inside⟩

theorem openCursor_spec (I : Inv dsha256 s) {prev : Word} (hok : openCursor prev s = .ok c t) :
    t = s ∧ Walking dsha256 s c := by
  simp only [openCursor, bind_eq_ok, get_eq_ok, check_eq_ok, pure_eq_ok] at hok
  obtain ⟨_, _, ⟨rfl, rfl⟩, _, _, ⟨hknown, rfl⟩, rfl, rfl⟩ := hok
  refine ⟨rfl, ⟨I.toTree, ?_, ?_, ?_, ?_⟩⟩
  · by_cases e : prev = t.tip
    · rw [e]; exact I.tip_stored
    · intro hw; exact hknown ⟨hw, e⟩
  · show (if prev = t.tip then t.tipWork else _) = _
    split
    · next e => rw [e]; exact I.tipWork
    · rfl
  · show (if prev = t.tip then t.tipHeight else _) = _
    split
    · next e => rw [e]; exact I.tipHeight
    · rfl
  · intro b
    exact (I.heaviest b).trans (le_max_left _ _)

theorem advanceTip_initialized {headers : Bytes} {u : Unit} (hok : advanceTip dsha256 now headers s = .ok u t) :
    s.initialized = true := by
  simp only [advanceTip, bind_eq_ok, get_eq_ok, check_eq_ok] at hok
  obtain ⟨s₀, _, ⟨rfl, rfl⟩, _, _, ⟨hi, -⟩, -⟩ := hok
  simpa using hi

/-- **One submission** keeps the tree and the heaviest tip, and changes no stored record; a submission of
stored headers changes nothing. -/
theorem advanceTip_spec (hH : HeaderHash dsha256) (I : Inv dsha256 s) {headers : Bytes} {u : Unit}
    (hok : advanceTip dsha256 now headers s = .ok u t) :
    Inv dsha256 t ∧ Grows s t ∧ ((∀ h ∈ splitHeaders headers, s.Stored (dsha256 h)) → t = s) := by
  simp only [advanceTip, bind_eq_ok, get_eq_ok, check_eq_ok, modify_eq_ok] at hok
  obtain ⟨_, _, ⟨rfl, rfl⟩, _, _, ⟨-, rfl⟩, _, _, ⟨-, rfl⟩, c, _, hopen, c', s', hloop, rfl⟩ := hok
  obtain ⟨rfl, W⟩ := openCursor_spec I hopen
  obtain ⟨W', g, honly, hknown⟩ := acceptHeaders_spec hH W hloop
  have htip : s'.tip = _ := congrArg Relay.tip honly
  have hwork : s'.tipWork = _ := congrArg Relay.tipWork honly
  have hheight : s'.tipHeight = _ := congrArg Relay.tipHeight honly
  simp only at htip hwork hheight
  obtain ⟨hepoch, hinside⟩ := I.anchor_of_grows g
  by_cases hlt : s'.tipWork < c'.cumWork
  · rw [if_pos hlt]
    refine ⟨⟨⟨W'.anchor, W'.linked, W'.unstored⟩, hepoch, hinside, W'.stored, W'.cumWork, W'.height, ?_⟩, ?_, ?_⟩
    · intro b
      have := W'.heaviest b
      show (s'.blocks b).work ≤ c'.cumWork
      omega
    · exact ⟨g.maxTarget, g.anchorTip, g.genesisEpoch, g.epochStartTimestamp, g.initialized, g.blocks⟩
    · -- a chain of stored headers cannot be heavier than the tip
      intro hk
      have e := hknown hk
      have := I.heaviest c'.prevHash
      rw [← e, ← W'.cumWork] at this
      omega
  · rw [if_neg hlt]
    refine ⟨⟨W'.toTree, hepoch, hinside, ?_, ?_, ?_, ?_⟩, g, hknown⟩
    · rw [htip]; exact g.stored I.tip_stored
    · rw [hwork, htip, g.blocks _ I.tip_stored]; exact I.tipWork
    · rw [hheight, htip, g.blocks _ I.tip_stored]; exact I.tipHeight
    · intro b
      have := W'.heaviest b
      omega

/-! ## Genesis -/

/-- A relay that stores its anchor only. -/
theorem Inv.of_anchor (hanchor : s.Stored s.anchorTip)
    (honly : ∀ b, b ≠ s.anchorTip → (s.blocks b).work = 0 ∧ (s.blocks b).height = 0)
    (hepoch : (s.blocks s.anchorTip).epochStartTs = s.epochStartTimestamp s.genesisEpoch)
    (hinside : ((s.blocks s.anchorTip).height + 1) % epochLength ≠ 0) (htip : s.tip = s.anchorTip)
    (hwork : s.tipWork = (s.blocks s.anchorTip).work) (hheight : s.tipHeight = (s.blocks s.anchorTip).height) :
    Inv dsha256 s where
  anchor := hanchor
  linked b hb hne := absurd (honly b hne).1 hb
  unstored b hb := (honly b fun e => hb (e ▸ hanchor)).2
  epochStart := hepoch
  inside := hinside
  tip_stored := htip ▸ hanchor
  tipWork := htip ▸ hwork
  tipHeight := htip ▸ hheight
  heaviest b := by
    by_cases e : b = s.anchorTip
    · rw [e, hwork]
    · have := (honly b e).1
      omega

theorem genesis_spec {maxTarget : Nat} {deployer sender : Address} {epochStart target startTimestamp tipHeight tipWork : Nat}
    {tipHash : Word} {u : Unit}
    (hok : genesis sender epochStart target startTimestamp tipHash tipHeight tipWork (deploy maxTarget deployer) =
      .ok u t) : Inv dsha256 t := by
  simp only [genesis, bind_eq_ok, get_eq_ok, check_eq_ok, orThrow_eq_ok, ofExcept_eq_ok, modify_eq_ok,
    uint256_eq_some] at hok
  obtain ⟨_, _, ⟨rfl, rfl⟩, _, _, ⟨-, rfl⟩, _, _, ⟨-, rfl⟩, _, _, ⟨hstart, rfl⟩, _, _, ⟨-, rfl⟩, _, _, ⟨-, rfl⟩,
    _, _, ⟨-, rfl⟩, _, _, ⟨hanchor, rfl⟩, _, _, ⟨⟨-, rfl⟩, rfl⟩, _, _, ⟨hheight, rfl⟩, _, _, ⟨-, rfl⟩, rfl⟩ := hok
  have hwork : tipWork ≠ 0 := fun e => hanchor (Or.inr e)
  have hzero : epochStart % epochLength = 0 := by simpa using hstart
  refine Inv.of_anchor ?_ ?_ ?_ ?_ rfl ?_ ?_
  · simpa [Stored] using hwork
  · intro b hne
    simp [deploy, show b ≠ tipHash from hne]
  · simp
  · simp only [Function.update_self]
    simp only [epochLength] at *
    omega
  · simp
  · simp

theorem genesis_initialized {sender : Address} {epochStart target startTimestamp tipHeight tipWork : Nat} {tipHash : Word}
    {u : Unit} (hok : genesis sender epochStart target startTimestamp tipHash tipHeight tipWork s = .ok u t) :
    s.initialized = false ∧ t.initialized = true := by
  simp only [genesis, bind_eq_ok, get_eq_ok, check_eq_ok, modify_eq_ok] at hok
  obtain ⟨s₀, _, ⟨rfl, rfl⟩, _, _, ⟨-, rfl⟩, _, _, ⟨hi, rfl⟩, _, _, ⟨-, rfl⟩, _, _, ⟨-, rfl⟩, _, _, -, _, _, ⟨-, rfl⟩,
    _, _, ⟨-, rfl⟩, _, _, -, _, _, ⟨-, rfl⟩, _, _, ⟨-, rfl⟩, rfl⟩ := hok
  exact ⟨by simpa using hi, rfl⟩

theorem setBlock_fork {x : Word} {v : Block} (hv : v.fork = (s.blocks b).fork) :
    ((s.setBlock b v).blocks x).fork = (s.blocks x).fork := by
  by_cases e : x = b
  · rw [e, setBlock_self, hv]
  · rw [setBlock_of_ne s v e]

/-- The seeding loop writes parents and timestamps only. -/
theorem seedAncestors_spec : ∀ {l : List (Word × Nat)} {s : Relay} {child : Word} {u : Unit},
    seedAncestors child l s = .ok u t →
      t = { s with blocks := t.blocks } ∧ ∀ b, (t.blocks b).fork = (s.blocks b).fork
  | [], s, child, u, hok => by
    obtain ⟨-, rfl⟩ := pure_eq_ok.1 hok
    exact ⟨rfl, fun _ => rfl⟩
  | (h, ts) :: rest, s, child, u, hok => by
    simp only [seedAncestors, bind_eq_ok, check_eq_ok, modify_eq_ok] at hok
    obtain ⟨_, _, ⟨-, rfl⟩, _, _, rfl, _, _, rfl, hrest⟩ := hok
    obtain ⟨ht, hb⟩ := seedAncestors_spec hrest
    refine ⟨ht, fun b => ?_⟩
    rw [hb b, setBlock_fork (by rfl), setBlock_fork (by rfl)]

theorem Inv.only_anchor (hH : HeaderHash dsha256) (I : Inv dsha256 s) (htip : s.tip = s.anchorTip) (hb : s.Stored b) :
    b = s.anchorTip := by
  rcases I.toTree.anchor_work_le hH hb with e | hlt
  · exact e
  · have := I.heaviest b
    rw [I.tipWork, htip] at this
    omega

theorem seedAnchorHistory_ok {sender : Address} {ts : Nat} {hashes : List Word} {times : List Nat} {u : Unit}
    (hok : seedAnchorHistory sender ts hashes times s = .ok u t) :
    s.initialized = true ∧ s.tip = s.anchorTip ∧ t = { s with historySeeded := true, blocks := t.blocks } ∧
      ∀ b, (t.blocks b).fork = (s.blocks b).fork := by
  simp only [seedAnchorHistory, bind_eq_ok, get_eq_ok, check_eq_ok, modify_eq_ok] at hok
  obtain ⟨s₀, _, ⟨rfl, rfl⟩, _, _, ⟨-, rfl⟩, _, _, ⟨hinit, rfl⟩, _, _, ⟨htip, rfl⟩, _, _, ⟨-, rfl⟩, _, _, ⟨-, rfl⟩,
    _, _, rfl, _, _, rfl, hloop⟩ := hok
  obtain ⟨ht, hfork⟩ := seedAncestors_spec hloop
  refine ⟨?_, not_not.1 htip, ht, fun b => ?_⟩
  · simpa using fun e => hinit (Or.inl e)
  · rw [hfork b, setBlock_fork (by rfl)]

/-- Seeding succeeds only before a block is stored, and then touches no work, height or target. -/
theorem seedAnchorHistory_spec (hH : HeaderHash dsha256) (I : Inv dsha256 s) {sender : Address} {ts : Nat}
    {hashes : List Word} {times : List Nat} {u : Unit} (hok : seedAnchorHistory sender ts hashes times s = .ok u t) :
    Inv dsha256 t := by
  obtain ⟨-, htip, ht, hfork⟩ := seedAnchorHistory_ok hok
  simp only [Block.fork, Prod.mk.injEq] at hfork
  obtain ⟨hwork, hheight, -, hepoch⟩ := hfork s.anchorTip
  have hat : t.anchorTip = s.anchorTip := by rw [ht]
  refine Inv.of_anchor ?_ ?_ ?_ ?_ ?_ ?_ ?_
  · rw [hat, Stored, hwork]; exact I.anchor
  · intro b hne
    have hb : ¬ s.Stored b := fun hb => hne (hat ▸ I.only_anchor hH htip hb)
    rw [(hfork b).1, (hfork b).2.1]
    exact ⟨not_not.1 hb, I.unstored b hb⟩
  · rw [hat, hepoch, I.epochStart, ht]
  · rw [hat, hheight]; exact I.inside
  · rw [ht]; exact htip
  · rw [hat, hwork, ← htip, ← I.tipWork, ht]
  · rw [hat, hheight, ← htip, ← I.tipHeight, ht]

/-! ## Histories -/

/-- A call of the relay, by anyone and at any time. -/
inductive Call
  | genesis (sender : Address) (epochStart target startTimestamp : Nat) (tipHash : Word) (tipHeight tipWork : Nat)
  | seedAnchorHistory (sender : Address) (anchorTimestamp : Nat) (hashes : List Word) (timestamps : List Nat)
  | advanceTip (now : Nat) (headers : Bytes)

def Call.prog (dsha256 : Bytes → Word) : Call → Prog Relay RelayError Unit
  | .genesis sender epochStart target startTimestamp tipHash tipHeight tipWork =>
    Relay.genesis sender epochStart target startTimestamp tipHash tipHeight tipWork
  | .seedAnchorHistory sender anchorTimestamp hashes timestamps =>
    Relay.seedAnchorHistory sender anchorTimestamp hashes timestamps
  | .advanceTip now headers => Relay.advanceTip dsha256 now headers

/-- A state the relay can be in: any calls after its deployment (the constructor refuses a zero `maxTarget`). -/
inductive Reachable (dsha256 : Bytes → Word) : Relay → Prop
  | deploy {maxTarget : Nat} {deployer : Address} : maxTarget ≠ 0 → Reachable dsha256 (Relay.deploy maxTarget deployer)
  | call {s : Relay} (c : Call) : Reachable dsha256 s → Reachable dsha256 ((c.prog dsha256).call s)

/-- Before `genesis` the storage is the deployed one; after it the invariant holds. -/
inductive Sound (dsha256 : Bytes → Word) : Relay → Prop
  | fresh (maxTarget : Nat) (deployer : Address) : Sound dsha256 (Relay.deploy maxTarget deployer)
  | live {s : Relay} : s.initialized = true → Inv dsha256 s → Sound dsha256 s

theorem Sound.inv (hs : Sound dsha256 s) (hi : s.initialized = true) : Inv dsha256 s := by
  cases hs with
  | fresh m d => cases hi
  | live _ I => exact I

/-- Every accepted call keeps the relay sound. -/
theorem Sound.step (hH : HeaderHash dsha256) (hs : Sound dsha256 s) {k : Call} {u : Unit}
    (hok : k.prog dsha256 s = .ok u t) : Sound dsha256 t := by
  cases k with
  | genesis sender epochStart target startTimestamp tipHash tipHeight tipWork =>
    cases hs with
    | fresh m d => exact .live (genesis_initialized hok).2 (genesis_spec hok)
    | live hi I => rw [(genesis_initialized hok).1] at hi; cases hi
  | seedAnchorHistory sender ts hashes times =>
    obtain ⟨hi, -, ht, -⟩ := seedAnchorHistory_ok hok
    refine .live ?_ (seedAnchorHistory_spec hH (hs.inv hi) hok)
    rw [ht]; exact hi
  | advanceTip now headers =>
    have hi := advanceTip_initialized hok
    obtain ⟨I, g, -⟩ := advanceTip_spec hH (hs.inv hi) hok
    exact .live (g.initialized.trans hi) I

theorem Reachable.sound (hH : HeaderHash dsha256) (hs : Reachable dsha256 s) : Sound dsha256 s := by
  induction hs with
  | deploy _ => exact .fresh _ _
  | call k _ ih => exact call_keeps ih fun u t h => ih.step hH h

/-! ## Submissions in any order -/

/-- A submission `(block.timestamp, headers)`; a refused one changes nothing. -/
def submit (dsha256 : Bytes → Word) (s : Relay) (sub : Nat × Bytes) : Relay := (advanceTip dsha256 sub.1 sub.2).call s

def submitAll (dsha256 : Bytes → Word) (s : Relay) (subs : List (Nat × Bytes)) : Relay := subs.foldl (submit dsha256) s

theorem submit_spec (hH : HeaderHash dsha256) (I : Inv dsha256 s) (sub : Nat × Bytes) :
    Inv dsha256 (submit dsha256 s sub) ∧ Grows s (submit dsha256 s sub) ∧
      ((∀ h ∈ splitHeaders sub.2, s.Stored (dsha256 h)) → submit dsha256 s sub = s) := by
  rcases call_cases (advanceTip dsha256 sub.1 sub.2) s with h | ⟨u, h⟩
  · rw [submit, h]
    exact ⟨I, Grows.refl s, fun _ => rfl⟩
  · exact advanceTip_spec hH I h

theorem submitAll_spec (hH : HeaderHash dsha256) : ∀ (subs : List (Nat × Bytes)) {s : Relay}, Inv dsha256 s →
    Inv dsha256 (submitAll dsha256 s subs) ∧ Grows s (submitAll dsha256 s subs)
  | [], s, I => ⟨I, Grows.refl s⟩
  | sub :: rest, s, I => by
    obtain ⟨I₁, g₁, -⟩ := submit_spec hH I sub
    obtain ⟨I₂, g₂⟩ := submitAll_spec hH rest I₁
    exact ⟨I₂, g₁.trans g₂⟩

/-- Two relays grown from one store the same record under every hash both store. -/
theorem blocks_eq_of_grows (hH : HeaderHash dsha256) {s₀ s₁ s₂ : Relay} (ha : s₀.Stored s₀.anchorTip)
    (g₁ : Grows s₀ s₁) (g₂ : Grows s₀ s₂) (T₁ : Tree dsha256 s₁) (T₂ : Tree dsha256 s₂)
    (hst : ∀ b, s₁.Stored b ↔ s₂.Stored b) (hb : s₁.Stored b) : s₁.blocks b = s₂.blocks b := by
  induction b using hH.acyclic.induction with
  | _ b ih =>
    by_cases e : b = s₁.anchorTip
    · rw [e, g₁.anchorTip, g₁.blocks _ ha, g₂.blocks _ ha]
    · obtain ⟨h, rfl, hp, hx⟩ := T₁.linked b hb e
      have hx₂ := T₂.extends_of_stored hH ((hst _).1 hp) ((hst _).1 hb)
      rw [← ih _ ⟨h, rfl, rfl⟩ hp, g₂.maxTarget, ← g₁.maxTarget] at hx₂
      exact hx.unique hx₂

theorem tipWork_le_of_grows (hH : HeaderHash dsha256) {s₀ s₁ s₂ : Relay} (ha : s₀.Stored s₀.anchorTip)
    (g₁ : Grows s₀ s₁) (g₂ : Grows s₀ s₂) (I₁ : Inv dsha256 s₁) (I₂ : Inv dsha256 s₂)
    (hst : ∀ b, s₁.Stored b ↔ s₂.Stored b) : s₁.tipWork ≤ s₂.tipWork := by
  rw [I₁.tipWork, blocks_eq_of_grows hH ha g₁ g₂ I₁.toTree I₂.toTree hst I₁.tip_stored]
  exact I₂.heaviest _

/-- The links of a stored block, as the mappings hold them. -/
theorem Tree.parent_spec (T : Tree dsha256 s) (hb : s.Stored b) (hne : b ≠ s.anchorTip) :
    s.Stored (s.blocks b).parent ∧ (s.blocks b).height = (s.blocks (s.blocks b).parent).height + 1 ∧
      (s.blocks b).work = (s.blocks (s.blocks b).parent).work + workFromTarget (s.blocks b).target := by
  obtain ⟨h, rfl, hp, target, -, hv⟩ := T.linked b hb hne
  rw [hv]
  exact ⟨hp, rfl, rfl⟩

/-- **Fork choice.** From any initialised relay, after any submissions: the tip is a heaviest stored block;
the stored blocks are linked to stored parents with their heights and works; no submission changes a stored
record, and one of stored headers changes nothing; the final `tipWork` is a function of the stored set. -/
theorem relay_fork_choice (hH : HeaderHash dsha256) {s₀ : Relay} (h₀ : Reachable dsha256 s₀)
    (hi : s₀.initialized = true) (subs : List (Nat × Bytes)) :
    let s := submitAll dsha256 s₀ subs
    (s.Stored s.tip ∧ s.tipWork = (s.blocks s.tip).work ∧ ∀ b, (s.blocks b).work ≤ s.tipWork) ∧
    (∀ b, s.Stored b → b ≠ s.anchorTip → s.Stored (s.blocks b).parent ∧
      (s.blocks b).height = (s.blocks (s.blocks b).parent).height + 1 ∧
      (s.blocks b).work = (s.blocks (s.blocks b).parent).work + workFromTarget (s.blocks b).target) ∧
    (∀ sub b, s.Stored b → (submit dsha256 s sub).blocks b = s.blocks b) ∧
    (∀ now headers, (∀ h ∈ splitHeaders headers, s.Stored (dsha256 h)) → submit dsha256 s (now, headers) = s) ∧
    ∀ subs', (∀ b, s.Stored b ↔ (submitAll dsha256 s₀ subs').Stored b) →
      s.tipWork = (submitAll dsha256 s₀ subs').tipWork := by
  intro s
  have I₀ := (h₀.sound hH).inv hi
  obtain ⟨I, g⟩ := submitAll_spec hH subs I₀
  refine ⟨⟨I.tip_stored, I.tipWork, I.heaviest⟩, ?_, ?_, ?_, ?_⟩
  · intro b hb hne
    exact I.toTree.parent_spec hb hne
  · intro sub b hb
    exact (submit_spec hH I sub).2.1.blocks b hb
  · intro now headers hk
    exact (submit_spec hH I (now, headers)).2.2 hk
  · intro subs' hst
    obtain ⟨I', g'⟩ := submitAll_spec hH subs' I₀
    apply le_antisymm
    · exact tipWork_le_of_grows hH I₀.anchor g g' I I' hst
    · exact tipWork_le_of_grows hH I₀.anchor g' g I' I fun b => (hst b).symm

/-! A run of one header over a mainnet-difficulty anchor. -/

/-- The anchor of the run. -/
def demoAnchor : Word := ⟨0 :: 1 :: List.replicate 30 0, by simp⟩

/-- A header over it: timestamp 2000, bits `0x1d00ffff`. -/
def demoHeader : Bytes :=
  List.replicate 4 0 ++ demoAnchor.bytes ++ List.replicate 32 0 ++ [208, 7, 0, 0, 255, 255, 0, 29] ++
    List.replicate 4 0

/-- The digest of `demoHeader` is small; every other header gets its code. -/
def demoHash (h : Bytes) : Word :=
  if h = demoHeader then ⟨1 :: List.replicate 31 0, by simp⟩ else ⟨(Encodable.encode h + 2) :: List.replicate 31 0, by simp⟩

def demoGenesis : Call := .genesis 7 0 (0xffff * 2 ^ 208) 1000 demoAnchor 5 1

def demoRelay : Relay := (demoGenesis.prog demoHash).call (Relay.deploy (0xffff * 2 ^ 208) 7)

theorem demoRelay_reachable : Reachable demoHash demoRelay := .call demoGenesis (.deploy (by decide))

theorem le_encode_of_mem : ∀ {h : Bytes} {x : Nat}, x ∈ h → x ≤ Encodable.encode h
  | a :: l, x, hx => by
    rw [Encodable.encode_list_cons]
    rcases List.mem_cons.1 hx with rfl | hx
    · exact (Nat.left_le_pair _ _).trans (Nat.le_succ _)
    · exact ((le_encode_of_mem hx).trans (Nat.right_le_pair _ _)).trans (Nat.le_succ _)

theorem prevBlock_head_le (h : Bytes) : (prevBlock h).bytes.headD 0 ≤ Encodable.encode h := by
  unfold prevBlock Word.ofBytes
  cases hl : (h.drop 4).take 32 with
  | nil => simp
  | cons a l =>
    have ha : a ∈ h := List.mem_of_mem_drop (List.mem_of_mem_take (hl ▸ List.mem_cons_self))
    simpa using le_encode_of_mem ha

theorem demoHash_ideal : HeaderHash demoHash where
  injective a b h := by
    have := congrArg (fun w : Word => w.bytes.headD 0) h
    unfold demoHash at this
    split at this <;> split at this <;> simp_all
  acyclic := by
    refine Subrelation.wf (r := InvImage (· < ·) fun w : Word => w.bytes.headD 0) ?_ (InvImage.wf _ Nat.lt_wfRel.wf)
    rintro _ _ ⟨h, rfl, rfl⟩
    show (prevBlock h).bytes.headD 0 < (demoHash h).bytes.headD 0
    by_cases e : h = demoHeader
    · subst e; decide
    · have := prevBlock_head_le h
      simp only [demoHash, if_neg e, List.headD_cons]
      omega
  nonzero h := by
    intro e
    have := congrArg (fun w : Word => w.bytes.headD 0) e
    unfold demoHash at this
    split at this <;> simp [OfNat.ofNat, Zero.zero] at this

/-- Non-vacuity: the submitted header becomes the tip, and submitting it again changes nothing. -/
theorem relay_fork_choice_one_block :
    (submitAll demoHash demoRelay [(2000, demoHeader)]).tip = demoHash demoHeader ∧
      ∀ now, submit demoHash (submitAll demoHash demoRelay [(2000, demoHeader)]) (now, demoHeader) =
        submitAll demoHash demoRelay [(2000, demoHeader)] := by
  refine ⟨by decide +kernel, fun now => ?_⟩
  refine (relay_fork_choice demoHash_ideal demoRelay_reachable (by decide +kernel) [(2000, demoHeader)]).2.2.2.1 now
    demoHeader ?_
  unfold Stored
  decide +kernel

end Relay

end Tacit
