import Mathlib.Data.Finset.Lattice.Fold
import Mathlib.Data.List.Dedup
import Tacit.Guest.Deferral
import Tacit.Pool.Overflow
/-!
# Draining what the guest deferred

A queued root is always one the guest made: a chunk of effects at level 1, a chunk of queued-level roots above
(`Opens`). So the queue can be emptied from the highest level down. Going down, a root met twice is queued once,
and every chunk the queue holds (`Holds`) is drained exactly once.
-/
namespace Tacit

open Prog ReflectGuest

namespace ReflectionLib

variable {K : Keccak}

/-! ## Chunks and their effects -/

/-- `(calls[i], calls[i + 1])` for even `i`. -/
def pairs : List Word → List (Word × Word)
  | id :: record :: rest => (id, record) :: pairs rest
  | _ => []

theorem pairs_flatPairs : ∀ l : List (Word × Word), pairs (flatPairs l) = l
  | [] => rfl
  | p :: l => by
    show pairs (p.1 :: p.2 :: flatPairs l) = p :: l
    rw [pairs, pairs_flatPairs l]

/-- The effects a drained chunk applies. -/
def Chunk.items (c : Chunk) : List Item :=
  c.spends.map .spent ++ c.redeems.map .redeemed ++ c.locks.map .lock ++ c.metas.map .asset ++
    (pairs c.calls).map fun p => .call p.1 p.2

/-- The effects an attest surfaces, in the guest's order. -/
def surfacedItems (r : BitcoinRelayPublicValues) : List Item :=
  r.cbtcLocksSpent.map .spent ++ r.cbtcLocksRedeemed.map .redeemed ++ r.cbtcLocksFolded.map .lock ++
    r.attestedAssetMetas.map .asset ++ (pairs r.btcCallsFolded).map fun p => .call p.1 p.2

theorem surfacedItems_publish (c : Cycle) (r : BitcoinRelayPublicValues) :
    surfacedItems (c.publish K r) = c.surfaced := by
  simp only [surfacedItems, Cycle.publish, pairs_flatPairs]
  rfl

theorem callLeaves_eq : ∀ l : List Word, callLeaves K l = (pairs l).map fun p => (Item.call p.1 p.2).leaf K
  | [] => rfl
  | [_] => rfl
  | id :: record :: rest => by
    rw [callLeaves, pairs, List.map_cons, callLeaves_eq rest]
    rfl

theorem Chunk.leaves_eq (c : Chunk) : c.leaves K = c.items.map (Item.leaf K) := by
  simp only [Chunk.leaves, Chunk.items, List.map_append, List.map_map, callLeaves_eq]
  rfl

def Item.spent? : Item → Option Word
  | .spent o => some o
  | _ => none

def Item.redeemed? : Item → Option Word
  | .redeemed o => some o
  | _ => none

def Item.lock? : Item → Option CbtcLockFolded
  | .lock f => some f
  | _ => none

def Item.asset? : Item → Option AssetMeta
  | .asset m => some m
  | _ => none

def Item.call? : Item → Option (Word × Word)
  | .call id record => some (id, record)
  | _ => none

/-- The arguments with which the effects `k` are drained. -/
def Chunk.of (k : List Item) : Chunk where
  terminals := k.filterMap Item.spent? ++ k.filterMap Item.redeemed?
  spentCount := (k.filterMap Item.spent?).length
  locks := k.filterMap Item.lock?
  metas := k.filterMap Item.asset?
  calls := flatPairs (k.filterMap Item.call?)

theorem Chunk.items_of_eq (k : List Item) : (Chunk.of k).items =
    (k.filterMap Item.spent?).map .spent ++ (k.filterMap Item.redeemed?).map .redeemed ++
      (k.filterMap Item.lock?).map .lock ++ (k.filterMap Item.asset?).map .asset ++
      (k.filterMap Item.call?).map fun p => .call p.1 p.2 := by
  simp [Chunk.items, Chunk.spends, Chunk.redeems, Chunk.of, pairs_flatPairs]

/-- A kind that is not there. -/
theorem filterMap_eq_nil_of_kind {β : Type} {f : Item → Option β} {k : List Item} {n : Nat} (h : ∀ e ∈ k, n ≤ e.kind)
    (hf : ∀ e : Item, n ≤ e.kind → f e = none) : k.filterMap f = [] :=
  List.filterMap_eq_nil_iff.2 fun e he => hf e (h e he)

/-- **A chunk in leaf order is what its drain applies.** -/
theorem Chunk.items_of {k : List Item} (h : Ordered k) : (Chunk.of k).items = k := by
  induction k with
  | nil => rfl
  | cons e k ih =>
    obtain ⟨hfirst, hrest⟩ := List.pairwise_cons.1 h
    have ih := ih hrest
    rw [Chunk.items_of_eq] at ih ⊢
    have hspent : 1 ≤ e.kind → k.filterMap Item.spent? = [] := fun hk =>
      filterMap_eq_nil_of_kind (fun a ha => hk.trans (hfirst a ha)) fun a ha => by
        cases a <;> simp_all [Item.kind, Item.spent?]
    have hredeemed : 2 ≤ e.kind → k.filterMap Item.redeemed? = [] := fun hk =>
      filterMap_eq_nil_of_kind (fun a ha => hk.trans (hfirst a ha)) fun a ha => by
        cases a <;> simp_all [Item.kind, Item.redeemed?]
    have hlock : 3 ≤ e.kind → k.filterMap Item.lock? = [] := fun hk =>
      filterMap_eq_nil_of_kind (fun a ha => hk.trans (hfirst a ha)) fun a ha => by
        cases a <;> simp_all [Item.kind, Item.lock?]
    have hasset : 4 ≤ e.kind → k.filterMap Item.asset? = [] := fun hk =>
      filterMap_eq_nil_of_kind (fun a ha => hk.trans (hfirst a ha)) fun a ha => by
        cases a <;> simp_all [Item.kind, Item.asset?]
    simp only [List.filterMap_cons]
    -- the kinds before that of `e` do not occur
    cases e with
    | spent o => simpa [Item.spent?, Item.redeemed?, Item.lock?, Item.asset?, Item.call?] using ih
    | redeemed o =>
      simp only [Item.kind, le_refl, forall_const] at hspent
      simpa [Item.spent?, Item.redeemed?, Item.lock?, Item.asset?, Item.call?, hspent] using ih
    | lock f =>
      have hspent := hspent (by simp [Item.kind])
      have hredeemed := hredeemed (by simp [Item.kind])
      simpa [Item.spent?, Item.redeemed?, Item.lock?, Item.asset?, Item.call?, hspent, hredeemed] using ih
    | asset m =>
      have hspent := hspent (by simp [Item.kind])
      have hredeemed := hredeemed (by simp [Item.kind])
      have hlock := hlock (by simp [Item.kind])
      simpa [Item.spent?, Item.redeemed?, Item.lock?, Item.asset?, Item.call?, hspent, hredeemed, hlock] using ih
    | call id record =>
      have hspent := hspent (by simp [Item.kind])
      have hredeemed := hredeemed (by simp [Item.kind])
      have hlock := hlock (by simp [Item.kind])
      have hasset := hasset (by simp [Item.kind])
      simpa [Item.spent?, Item.redeemed?, Item.lock?, Item.asset?, Item.call?, hspent, hredeemed, hlock, hasset] using ih

/-! ## Leaves bind their effects -/

/-- The kind byte of an effect's leaf. -/
def Item.tag : Item → Nat
  | .spent _ => 0x04
  | .redeemed _ => 0x05
  | .lock _ => 0x01
  | .asset _ => 0x02
  | .call _ _ => 0x03

theorem Item.leaf_tag (e : Item) : ∃ p, e.leaf K = K.kn ([Item.tag e] :: p) := by
  cases e with
  | spent o => exact ⟨_, rfl⟩
  | redeemed o => exact ⟨_, rfl⟩
  | lock f => exact ⟨_, rfl⟩
  | asset m => exact ⟨_, rfl⟩
  | call id record => exact ⟨_, rfl⟩

theorem metaLeaf_inj (hK : K.Ideal) {m m' : AssetMeta} (hm : m.ticker.length = 16) (hm' : m'.ticker.length = 16)
    (h : metaLeaf K m = metaLeaf K m') : m = m' := by
  have hparts := hK.kn_inj (by simp [m.assetId.len, m'.assetId.len, hm, hm', m.cid.len, m'.cid.len]) h
  simp only [List.cons.injEq, and_true, true_and] at hparts
  obtain ⟨hid, hticker, hlen, hdec, hcid⟩ := hparts
  cases m
  cases m'
  simp_all [Word.ext_iff]

theorem Item.leaf_inj (hK : K.Ideal) {e e' : Item} (he : e.Fits) (he' : e'.Fits) (h : e.leaf K = e'.leaf K) :
    e = e' := by
  obtain ⟨p, hp⟩ := Item.leaf_tag (K := K) e
  obtain ⟨q, hq⟩ := Item.leaf_tag (K := K) e'
  have htag : Item.tag e = Item.tag e' := tag_of_kn_eq hK (hp.symm.trans (h.trans hq))
  cases e <;> cases e' <;> cases htag
  · next o o' => rw [(terminalLeaf_inj hK (show terminalLeaf K true o = terminalLeaf K true o' from h)).2]
  · next o o' => rw [(terminalLeaf_inj hK (show terminalLeaf K false o = terminalLeaf K false o' from h)).2]
  · next f g => rw [lockLeaf_inj hK he.2 he'.2 (show lockLeaf K f = lockLeaf K g from h)]
  · next m m' => rw [metaLeaf_inj hK he he' (show metaLeaf K m = metaLeaf K m' from h)]
  · next id record id' record' =>
    have hparts := hK.kn_inj (by simp [id.len, id'.len, record.len, record'.len])
      (show K.kn [[0x03], id.bytes, record.bytes] = K.kn [[0x03], id'.bytes, record'.bytes] from h)
    simp only [List.cons.injEq, and_true, true_and] at hparts
    rw [Word.ext hparts.1, Word.ext hparts.2]

theorem leaves_inj (hK : K.Ideal) : ∀ {k k' : List Item}, (∀ e ∈ k, e.Fits) → (∀ e ∈ k', e.Fits) →
    k.map (Item.leaf K) = k'.map (Item.leaf K) → k = k'
  | [], [], _, _, _ => rfl
  | [], _ :: _, _, _, h => by simp at h
  | _ :: _, [], _, _, h => by simp at h
  | e :: k, e' :: k', hk, hk', h => by
    rw [List.map_cons, List.map_cons, List.cons.injEq] at h
    rw [Item.leaf_inj hK (hk e (by simp)) (hk' e' (by simp)) h.1,
      leaves_inj hK (fun a ha => hk a (by simp [ha])) (fun a ha => hk' a (by simp [ha])) h.2]

/-- The root of the effects `k`. -/
def itemsRoot (K : Keccak) (k : List Item) : Word := chainRoot K (k.map (Item.leaf K))

theorem Chunk.root_of {k : List Item} (h : Ordered k) : (Chunk.of k).root K = itemsRoot K k := by
  rw [Chunk.root, Chunk.leaves_eq, Chunk.items_of h]
  rfl

theorem itemsRoot_inj (hK : K.Ideal) {k k' : List Item} (hk : ∀ e ∈ k, e.Fits) (hk' : ∀ e ∈ k', e.Fits)
    (h : itemsRoot K k = itemsRoot K k') : k = k' :=
  leaves_inj hK hk hk' (chainRoot_injective hK h)

theorem metaRoot_injective (hK : K.Ideal) : Function.Injective (metaRoot K) := by
  intro ys ys' h
  exact List.map_injective_iff.2 (fun _ _ => wrapLeaf_inj hK) (chainRoot_injective hK h)

/-- A chunk of effects is no chunk of roots. -/
theorem itemsRoot_ne_metaRoot (hK : K.Ideal) {k : List Item} {ys : List Word} (hk : k ≠ []) :
    itemsRoot K k ≠ metaRoot K ys := by
  intro h
  have hleaves := chainRoot_injective hK h
  cases k with
  | nil => exact hk rfl
  | cons e k =>
    cases ys with
    | nil => simp at hleaves
    | cons y ys =>
      simp only [List.map_cons, List.cons.injEq] at hleaves
      obtain ⟨p, hp⟩ := Item.leaf_tag (K := K) e
      have htag := tag_of_kn_eq hK (hp.symm.trans hleaves.1)
      cases e <;> cases htag

theorem chainRoot_ne_zero (hK : K.Ideal) {l : List Word} (hl : l ≠ []) : chainRoot K l ≠ 0 := by
  intro h
  exact hl (chainRoot_injective hK (h.trans (show (0 : Word) = chainRoot K [] from rfl)))

/-! ## What a queued root stands for -/

/-- `x` is a root the guest publishes at the level: of a chunk of effects, or of a chunk of roots one level down. -/
inductive Opens (K : Keccak) : Nat → Word → Prop
  | chunk {k : List Item} : k ≠ [] → k.length ≤ overflowChunk → Ordered k → (∀ e ∈ k, e.Fits) →
      Opens K 1 (itemsRoot K k)
  | wrap {n : Nat} {ys : List Word} : ys ≠ [] → ys.length ≤ overflowChunk → (∀ y ∈ ys, Opens K (n + 1) y) →
      Opens K (n + 2) (metaRoot K ys)

/-- The chunk `k` is below the root. -/
inductive Holds (K : Keccak) : Nat → Word → List Item → Prop
  | chunk {k : List Item} : k ≠ [] → (∀ e ∈ k, e.Fits) → Holds K 1 (itemsRoot K k) k
  | wrap {n : Nat} {ys : List Word} {y : Word} {k : List Item} : y ∈ ys → Holds K (n + 1) y k →
      Holds K (n + 2) (metaRoot K ys) k

theorem Opens.ne_zero (hK : K.Ideal) {n : Nat} {x : Word} (h : Opens K n x) : x ≠ 0 := by
  cases h with
  | chunk hk _ _ _ => exact chainRoot_ne_zero hK (by simpa using hk)
  | wrap hys _ _ => exact chainRoot_ne_zero hK (by simpa using hys)

theorem Opens.pos {n : Nat} {x : Word} (h : Opens K n x) : n ≠ 0 := by
  cases h <;> omega

/-- A root has one level. -/
theorem Opens.level_eq (hK : K.Ideal) {m : Nat} {x : Word} (h : Opens K m x) : ∀ {n : Nat}, Opens K n x → m = n := by
  induction h with
  | chunk hk _ _ _ =>
    intro n hn
    generalize hx : itemsRoot K _ = x at hn
    cases hn with
    | chunk _ _ _ _ => rfl
    | wrap _ _ _ => exact absurd hx (itemsRoot_ne_metaRoot hK hk)
  | wrap hys _ _ ih =>
    intro n hn
    generalize hx : metaRoot K _ = x at hn
    cases hn with
    | chunk hk _ _ _ => exact absurd hx.symm (itemsRoot_ne_metaRoot hK hk)
    | wrap _ _ hopen =>
      obtain rfl := metaRoot_injective hK hx
      obtain ⟨y, hy⟩ := List.exists_mem_of_ne_nil _ hys
      have := ih y hy (hopen y hy)
      omega

theorem holds_chunk (hK : K.Ideal) {k k' : List Item} (hk : k ≠ []) (hfit : ∀ e ∈ k, e.Fits) :
    Holds K 1 (itemsRoot K k) k' ↔ k' = k := by
  constructor
  · intro h
    generalize hx : itemsRoot K k = x at h
    cases h with
    | chunk _ hfit' => exact (itemsRoot_inj hK hfit hfit' hx).symm
  · rintro rfl
    exact .chunk hk hfit

theorem holds_wrap (hK : K.Ideal) {n : Nat} {ys : List Word} {k : List Item} :
    Holds K (n + 2) (metaRoot K ys) k ↔ ∃ y ∈ ys, Holds K (n + 1) y k := by
  constructor
  · intro h
    generalize hx : metaRoot K ys = x at h
    cases h with
    | wrap hy hold =>
      obtain rfl := metaRoot_injective hK hx
      exact ⟨_, hy, hold⟩
  · rintro ⟨y, hy, hold⟩
    exact .wrap hy hold

/-! ## The queue holds what the guest made -/

/-- Every queued root opens at the level it is queued at. -/
def Overflow.Levelled (K : Keccak) (q : Overflow) : Prop := ∀ x, q.queue x ≠ 0 → Opens K (q.queue x) x

/-- The chunk `k` is below a queued root. -/
def Overflow.Holds (K : Keccak) (q : Overflow) (k : List Item) : Prop :=
  ∃ x, q.queue x ≠ 0 ∧ ReflectionLib.Holds K (q.queue x) x k

theorem Overflow.queue_enqueue_eq (q : Overflow) (level : Nat) (root x : Word) :
    (q.enqueue level root).queue x = if x = root ∧ root ≠ 0 ∧ q.queue root = 0 then level else q.queue x := by
  unfold Overflow.enqueue
  by_cases h : root ≠ 0 ∧ q.queue root = 0
  · by_cases e : x = root <;> simp [h, e]
  · simp [h]

theorem Overflow.queue_enqueueAll_eq (level : Nat) (roots : List Word) (x : Word) : ∀ q : Overflow,
    (roots.foldl (Overflow.enqueue · level) q).queue x =
      if x ∈ roots ∧ x ≠ 0 ∧ q.queue x = 0 then level else q.queue x := by
  induction roots with
  | nil => simp
  | cons root roots ih =>
    intro q
    rw [List.foldl_cons, ih, Overflow.queue_enqueue_eq]
    by_cases e : x = root
    · subst e
      by_cases h0 : x ≠ 0 ∧ q.queue x = 0 <;> simp_all
    · simp [e]

theorem Overflow.Levelled.enqueue {q : Overflow} (h : q.Levelled K) {level : Nat} {root : Word}
    (hroot : Opens K level root) : (q.enqueue level root).Levelled K := by
  intro x
  rw [Overflow.queue_enqueue_eq]
  split
  · next hx => exact fun _ => hx.1 ▸ hroot
  · exact h x

theorem Overflow.Levelled.dequeue {q : Overflow} (h : q.Levelled K) (root : Word) : (q.dequeue root).Levelled K := by
  intro x
  by_cases e : x = root
  · simp [Overflow.dequeue, e]
  · simpa [Overflow.dequeue, e] using h x

/-- Queueing a root adds the chunks below it: one that is queued is queued at this level. -/
theorem Overflow.Levelled.holds_enqueue (hK : K.Ideal) {q : Overflow} (h : q.Levelled K) {level : Nat} {root : Word}
    (hroot : Opens K level root) (k : List Item) :
    (q.enqueue level root).Holds K k ↔ q.Holds K k ∨ ReflectionLib.Holds K level root k := by
  have hvalue : (q.enqueue level root).queue root = level := by
    rw [Overflow.queue_enqueue_eq]
    by_cases hq : q.queue root = 0
    · simp [hq, hroot.ne_zero hK]
    · simpa [hq] using (h root hq).level_eq hK hroot
  have hother : ∀ x, x ≠ root → (q.enqueue level root).queue x = q.queue x := by
    intro x hx
    simp [Overflow.queue_enqueue_eq, hx]
  constructor
  · rintro ⟨x, hx, hold⟩
    by_cases e : x = root
    · subst e
      exact Or.inr (hvalue ▸ hold)
    · rw [hother x e] at hx hold
      exact Or.inl ⟨x, hx, hold⟩
  · rintro (⟨x, hx, hold⟩ | hold)
    · by_cases e : x = root
      · subst e
        refine ⟨x, by rw [hvalue]; exact hroot.pos, ?_⟩
        rw [hvalue, ← (h x hx).level_eq hK hroot]
        exact hold
      · exact ⟨x, by rwa [hother x e], by rwa [hother x e]⟩
    · exact ⟨root, by rw [hvalue]; exact hroot.pos, by rwa [hvalue]⟩

/-- A loop of roots of one level. -/
theorem Overflow.Levelled.enqueueAll (hK : K.Ideal) {level : Nat} (roots : List Word) :
    ∀ {q : Overflow}, q.Levelled K → (∀ x ∈ roots, Opens K level x) →
      (roots.foldl (Overflow.enqueue · level) q).Levelled K ∧
      ∀ k, (roots.foldl (Overflow.enqueue · level) q).Holds K k ↔
        q.Holds K k ∨ ∃ x ∈ roots, ReflectionLib.Holds K level x k := by
  induction roots with
  | nil => exact fun h _ => ⟨h, by simp⟩
  | cons root roots ih =>
    intro q h hroots
    have hroot := hroots root (by simp)
    obtain ⟨hlevelled, hholds⟩ := ih (h.enqueue hroot) fun x hx => hroots x (by simp [hx])
    refine ⟨hlevelled, fun k => ?_⟩
    rw [List.foldl_cons, hholds k, h.holds_enqueue hK hroot k, or_assoc]
    simp

theorem Overflow.holds_dequeue {q : Overflow} {root : Word} (hq : q.queue root ≠ 0) (k : List Item) :
    q.Holds K k ↔ (q.dequeue root).Holds K k ∨ ReflectionLib.Holds K (q.queue root) root k := by
  have hother : ∀ x, x ≠ root → (q.dequeue root).queue x = q.queue x := by
    intro x hx
    simp [Overflow.dequeue, hx]
  constructor
  · rintro ⟨x, hx, hold⟩
    by_cases e : x = root
    · subst e
      exact Or.inr hold
    · exact Or.inl ⟨x, by rwa [hother x e], by rwa [hother x e]⟩
  · rintro (⟨x, hx, hold⟩ | hold)
    · have e : x ≠ root := by
        rintro rfl
        simp [Overflow.dequeue] at hx
      rw [hother x e] at hx hold
      exact ⟨x, hx, hold⟩
    · exact ⟨root, hq, hold⟩

/-! ## Drains -/

/-- A call of one of the two entry points. -/
inductive Drain
  | chunk (c : Chunk)
  | roots (subroots : List Word) (level : Nat)

def Drain.call : Drain → QueueCall
  | chunk c => .drainOverflow c
  | roots subroots level => .drainOverflowRoots subroots level

/-- The number of leaves the call hashes. -/
def Drain.size : Drain → Nat
  | chunk c => c.items.length
  | roots subroots _ => subroots.length

/-- The effects the call applies. -/
def Drain.items : Drain → List Item
  | chunk c => c.items
  | roots _ _ => []

def Drain.chunk? : Drain → Option Chunk
  | chunk c => some c
  | roots _ _ => none

/-- Accepted drains, one after another. -/
inductive Drained (K : Keccak) : Storage → List Drain → Storage → Prop
  | nil {s : Storage} : Drained K s [] s
  | cons {s t u : Storage} {d : Drain} {ds : List Drain} {metas : List AssetMeta} :
      d.call.prog K s = .ok metas t → Drained K t ds u → Drained K s (d :: ds) u

/-- What an accepted drain of effects does to the queue. -/
theorem drainOverflow_ok {c : Chunk} {s t : Storage} {metas : List AssetMeta}
    (hok : drainOverflow K c s = .ok metas t) :
    s.overflow.queue (c.root K) = 1 ∧ t.overflow = s.overflow.dequeue (c.root K) := by
  simp only [drainOverflow, bind_eq_ok, get_eq_ok, check_eq_ok, modify_eq_ok, pure_eq_ok, forEach_check_eq_ok] at hok
  obtain ⟨_, _, ⟨-, rfl⟩, _, _, ⟨-, rfl⟩, _, _, ⟨rfl, rfl⟩, _, _, ⟨hq, rfl⟩, _, _, rfl, -, rfl⟩ := hok
  exact ⟨not_not.1 hq, rfl⟩

/-- What an accepted drain of roots does to it. -/
theorem drainOverflowRoots_ok {subroots : List Word} {level : Nat} {s t : Storage} {u : Unit}
    (hok : drainOverflowRoots K subroots level s = .ok u t) :
    2 ≤ level ∧ s.overflow.queue (metaRoot K subroots) = level ∧
      t.overflow = subroots.foldl (Overflow.enqueue · (level - 1)) (s.overflow.dequeue (metaRoot K subroots)) := by
  simp only [drainOverflowRoots, bind_eq_ok, get_eq_ok, check_eq_ok, modify_eq_ok] at hok
  obtain ⟨_, _, ⟨hlevel, rfl⟩, _, _, ⟨rfl, rfl⟩, _, _, ⟨hq, rfl⟩, rfl⟩ := hok
  exact ⟨not_lt.1 hlevel, not_not.1 hq, rfl⟩

/-- A queued chunk of effects is drained with its effects. -/
theorem drain_chunk {k : List Item} (hord : Ordered k) (hfit : ∀ e ∈ k, e.Fits) {s : Storage}
    (hq : s.overflow.queue (itemsRoot K k) = 1) :
    ∃ metas t, (Drain.chunk (Chunk.of k)).call.prog K s = .ok metas t ∧
      t.overflow = s.overflow.dequeue (itemsRoot K k) := by
  have hcalls : (Chunk.of k).calls.length % 2 = 0 := by
    simp [Chunk.of, flatPairs, List.length_flatMap]
  have hspent : (Chunk.of k).spentCount ≤ (Chunk.of k).terminals.length := by
    simp [Chunk.of]
  have hlocks : ∀ f ∈ (Chunk.of k).locks, f.vBtc ≠ 0 ∧ f.vBtc < 2 ^ 64 := by
    intro f hf
    obtain ⟨e, he, hef⟩ := List.mem_filterMap.1 hf
    cases e <;> cases hef
    exact hfit _ he
  rw [← Chunk.root_of hord] at hq ⊢
  obtain ⟨metas, hok⟩ := ok_of_accepts (drainOverflow_accepts hcalls hspent hlocks hq)
  exact ⟨metas, _, hok, (drainOverflow_ok hok).2⟩

/-- A queued chunk of roots is drained with its roots. -/
theorem drain_roots {ys : List Word} {n : Nat} {s : Storage} (hq : s.overflow.queue (metaRoot K ys) = n + 2) :
    ∃ metas t, (Drain.roots ys (n + 2)).call.prog K s = .ok metas t ∧
      t.overflow = ys.foldl (Overflow.enqueue · (n + 1)) (s.overflow.dequeue (metaRoot K ys)) := by
  have hlevel : ¬ n + 2 < 2 := by omega
  have hok : ∃ t, drainOverflowRoots K ys (n + 2) s = .ok () t := by
    simp only [drainOverflowRoots, bind_eq_ok, get_eq_ok, check_eq_ok, modify_eq_ok]
    exact ⟨_, (), s, ⟨hlevel, rfl⟩, _, _, ⟨rfl, rfl⟩, (), s, ⟨not_not.2 hq, rfl⟩, rfl⟩
  obtain ⟨t, hok⟩ := hok
  refine ⟨[], t, ?_, (drainOverflowRoots_ok hok).2.2⟩
  show QueueCall.prog K (.drainOverflowRoots ys (n + 2)) s = _
  simp only [QueueCall.prog, bind_eq_ok, pure_eq_ok]
  exact ⟨(), t, hok, trivial, rfl⟩

/-- The roots queued at a level. -/
theorem Overflow.Counted.level_roots {q : Overflow} (h : q.Counted) {level : Nat} (hl : level ≠ 0) :
    ∃ l : List Word, l.Nodup ∧ ∀ x, x ∈ l ↔ q.queue x = level := by
  obtain ⟨F, hF, -⟩ := h
  refine ⟨(F.filter fun x => q.queue x = level).toList, Finset.nodup_toList _, fun x => ?_⟩
  rw [Finset.mem_toList, Finset.mem_filter, hF x]
  constructor
  · exact And.right
  · exact fun hx => ⟨by rw [hx]; exact hl, hx⟩

/-- The drains empty the storage's queue: each call takes one chunk, and the chunks `ks` that the queue held are
drained, each once. -/
structure Empties (K : Keccak) (s : Storage) (ds : List Drain) (u : Storage) (ks : List (List Item)) : Prop where
  drained : Drained K s ds u
  empty : ∀ x, u.overflow.queue x = 0
  counted : u.overflow.Counted
  size : ∀ d ∈ ds, d.size ≤ overflowChunk
  chunks : ds.filterMap Drain.chunk? = ks.map Chunk.of
  nodup : ks.Nodup
  ordered : ∀ k ∈ ks, Ordered k
  held : ∀ k, k ∈ ks ↔ s.overflow.Holds K k

/-- A queue whose roots are chunks of effects. -/
theorem empties_chunks (hK : K.Ideal) (l : List Word) : l.Nodup → ∀ s : Storage, s.overflow.Levelled K →
    s.overflow.Counted → (∀ x, s.overflow.queue x ≤ 1) → (∀ x, x ∈ l ↔ s.overflow.queue x = 1) →
    ∃ ds u ks, Empties K s ds u ks := by
  induction l with
  | nil =>
    intro _ s hlev hcnt hle hl
    have hzero : ∀ x, s.overflow.queue x = 0 := by
      intro x
      have := hle x
      have : s.overflow.queue x ≠ 1 := fun h => by simpa using (hl x).2 h
      omega
    refine ⟨[], s, [], .nil, hzero, hcnt, by simp, rfl, List.nodup_nil, by simp, fun k => ?_⟩
    simp [Overflow.Holds, hzero]
  | cons x l ih =>
    intro hcons s hlev hcnt hle hl
    obtain ⟨hnew, hnodup⟩ := List.nodup_cons.1 hcons
    have hx : s.overflow.queue x = 1 := (hl x).1 (by simp)
    have hopen : Opens K 1 x := hx ▸ hlev x (by omega)
    cases hopen with
    | @chunk k hk hlen hord hfit =>
    obtain ⟨metas, t, hok, ht⟩ := drain_chunk hord hfit hx
    have hqueue : ∀ y, t.overflow.queue y = if y = itemsRoot K k then 0 else s.overflow.queue y := by
      intro y
      rw [ht]
      by_cases e : y = itemsRoot K k <;> simp [Overflow.dequeue, e]
    have hle' : ∀ y, t.overflow.queue y ≤ 1 := by
      intro y
      rw [hqueue y]
      split
      · omega
      · exact hle y
    have hl' : ∀ y, y ∈ l ↔ t.overflow.queue y = 1 := by
      intro y
      rw [hqueue y]
      by_cases e : y = itemsRoot K k
      · simp [e, hnew]
      · rw [if_neg e, ← hl y]
        simp [e]
    obtain ⟨ds, u, ks, h⟩ := ih hnodup t (ht ▸ hlev.dequeue _) (ht ▸ hcnt.dequeue (by rw [hx]; omega)) hle' hl'
    have hheld : ∀ k', s.overflow.Holds K k' ↔ t.overflow.Holds K k' ∨ k' = k := by
      intro k'
      rw [Overflow.holds_dequeue (by rw [hx]; omega : s.overflow.queue (itemsRoot K k) ≠ 0), ← ht, hx, holds_chunk hK hk hfit]
    -- no other root holds the chunk
    have hfresh : k ∉ ks := by
      intro hmem
      obtain ⟨y, hy, hold⟩ := (h.held k).1 hmem
      have hy1 : t.overflow.queue y = 1 := by
        have := hle' y
        omega
      rw [hy1] at hold
      cases hold
      rw [hqueue, if_pos rfl] at hy1
      omega
    refine ⟨.chunk (Chunk.of k) :: ds, u, k :: ks, .cons hok h.drained, h.empty, h.counted, ?_, ?_, ?_, ?_, ?_⟩
    · intro d hd
      rcases List.mem_cons.1 hd with rfl | hd
      · show (Chunk.of k).items.length ≤ _
        rwa [Chunk.items_of hord]
      · exact h.size d hd
    · rw [List.filterMap_cons_some (show Drain.chunk? (.chunk (Chunk.of k)) = some (Chunk.of k) from rfl), h.chunks,
        List.map_cons]
    · exact List.nodup_cons.2 ⟨hfresh, h.nodup⟩
    · intro k' hk'
      rcases List.mem_cons.1 hk' with rfl | hk'
      · exact hord
      · exact h.ordered k' hk'
    · intro k'
      rw [hheld k', List.mem_cons, h.held k', or_comm]

/-- A queue whose highest roots are chunks of roots, if one without them can be emptied. -/
theorem empties_roots (hK : K.Ideal) {n : Nat}
    (below : ∀ s : Storage, s.overflow.Levelled K → s.overflow.Counted → (∀ x, s.overflow.queue x ≤ n + 1) →
      ∃ ds u ks, Empties K s ds u ks)
    (l : List Word) : l.Nodup → ∀ s : Storage, s.overflow.Levelled K → s.overflow.Counted →
      (∀ x, s.overflow.queue x ≤ n + 2) → (∀ x, x ∈ l ↔ s.overflow.queue x = n + 2) →
      ∃ ds u ks, Empties K s ds u ks := by
  induction l with
  | nil =>
    intro _ s hlev hcnt hle hl
    refine below s hlev hcnt fun x => ?_
    have := hle x
    have : s.overflow.queue x ≠ n + 2 := fun h => by simpa using (hl x).2 h
    omega
  | cons x l ih =>
    intro hcons s hlev hcnt hle hl
    obtain ⟨hnew, hnodup⟩ := List.nodup_cons.1 hcons
    have hx : s.overflow.queue x = n + 2 := (hl x).1 (by simp)
    have hopen : Opens K (n + 2) x := hx ▸ hlev x (by omega)
    cases hopen with
    | @wrap _ ys hys hlen hsub =>
    obtain ⟨metas, t, hok, ht⟩ := drain_roots hx
    have hqueued : s.overflow.queue (metaRoot K ys) ≠ 0 := by omega
    obtain ⟨hlev', hholds⟩ := (hlev.dequeue (metaRoot K ys)).enqueueAll hK ys hsub
    -- a root of the level is one that was there
    have hqueue : ∀ y, t.overflow.queue y ≤ n + 2 ∧
        (t.overflow.queue y = n + 2 ↔ s.overflow.queue y = n + 2 ∧ y ≠ metaRoot K ys) := by
      intro y
      have hy := hle y
      rw [ht, Overflow.queue_enqueueAll_eq]
      by_cases e : y = metaRoot K ys
      · subst e
        simp only [Overflow.dequeue, Function.update_self]
        split <;> simp
      · simp only [Overflow.dequeue, Function.update_of_ne e]
        split
        · next h => simp [h.2.2]
        · simp [e, hy]
    have hl' : ∀ y, y ∈ l ↔ t.overflow.queue y = n + 2 := by
      intro y
      rw [(hqueue y).2, ← hl y]
      by_cases e : y = metaRoot K ys
      · simp [e, hnew]
      · simp [e]
    have hcnt' : t.overflow.Counted := ht ▸ (hcnt.dequeue hqueued).enqueueAll (by omega) ys
    obtain ⟨ds, u, ks, h⟩ := ih hnodup t (ht ▸ hlev') hcnt' (fun y => (hqueue y).1) hl'
    have hheld : ∀ k, t.overflow.Holds K k ↔ s.overflow.Holds K k := by
      intro k
      rw [ht, hholds k, Overflow.holds_dequeue hqueued, hx, holds_wrap hK]
    refine ⟨.roots ys (n + 2) :: ds, u, ks, .cons hok h.drained, h.empty, h.counted, ?_, h.chunks, h.nodup, h.ordered, ?_⟩
    · intro d hd
      rcases List.mem_cons.1 hd with rfl | hd
      · exact hlen
      · exact h.size d hd
    · intro k
      rw [h.held k, hheld k]

/-- **The queue can be emptied**, from the highest level down. -/
theorem empties (hK : K.Ideal) (level : Nat) : ∀ s : Storage, s.overflow.Levelled K → s.overflow.Counted →
    (∀ x, s.overflow.queue x ≤ level) → ∃ ds u ks, Empties K s ds u ks := by
  induction level with
  | zero =>
    intro s hlev hcnt hle
    refine empties_chunks hK [] List.nodup_nil s hlev hcnt (fun x => (hle x).trans (Nat.zero_le 1)) fun x => ?_
    have := hle x
    simp
    omega
  | succ level ih =>
    intro s hlev hcnt hle
    obtain ⟨l, hnodup, hl⟩ := hcnt.level_roots (Nat.succ_ne_zero level)
    cases level with
    | zero => exact empties_chunks hK l hnodup s hlev hcnt hle hl
    | succ n => exact empties_roots hK ih l hnodup s hlev hcnt hle hl

/-- The queue is finite, so its levels are bounded. -/
theorem Overflow.Counted.level_le {q : Overflow} (h : q.Counted) : ∃ level, ∀ x, q.queue x ≤ level := by
  obtain ⟨F, hF, -⟩ := h
  refine ⟨F.sup q.queue, fun x => ?_⟩
  by_cases hx : q.queue x = 0
  · omega
  · exact Finset.le_sup (f := q.queue) ((hF x).2 hx)

/-! ## What a cycle queues -/

theorem wrapRoots_opens (hK : K.Ideal) (roots : List Word) (level : Nat) : level ≠ 0 →
    (∀ x ∈ roots, Opens K level x) → (wrapRoots K roots level).2 ≠ 0 ∧
      (∀ x ∈ (wrapRoots K roots level).1, Opens K (wrapRoots K roots level).2 x) ∧
      ∀ k, (∃ x ∈ (wrapRoots K roots level).1, Holds K (wrapRoots K roots level).2 x k) ↔
        ∃ x ∈ roots, Holds K level x k := by
  induction roots, level using wrapRoots.induct K with
  | case2 roots level hcap =>
    intro hl hroots
    rw [wrapRoots, if_neg hcap]
    exact ⟨hl, hroots, fun _ => Iff.rfl⟩
  | case1 roots level hcap ih =>
    intro hl hroots
    obtain ⟨n, rfl⟩ : ∃ n, level = n + 1 := ⟨level - 1, by omega⟩
    rw [wrapRoots, if_pos hcap]
    rw [wrappedRoots_eq] at ih ⊢
    obtain ⟨hl', hopens, hholds⟩ := ih (by omega) (by
      intro x hx
      obtain ⟨ys, hys, rfl⟩ := List.mem_map.1 hx
      exact .wrap (ne_nil_of_mem_chunks _ ys hys) (length_le_of_mem_chunks (by decide) _ ys hys)
        fun y hy => hroots y ((sublist_of_mem_chunks _ ys hys).subset hy))
    refine ⟨hl', hopens, fun k => ?_⟩
    rw [hholds k]
    constructor
    · rintro ⟨x, hx, hold⟩
      obtain ⟨ys, hys, rfl⟩ := List.mem_map.1 hx
      obtain ⟨y, hy, hold⟩ := (holds_wrap hK).1 hold
      exact ⟨y, (sublist_of_mem_chunks _ ys hys).subset hy, hold⟩
    · rintro ⟨y, hy, hold⟩
      rw [← chunks_flatten (n := overflowChunk) roots, List.mem_flatten] at hy
      obtain ⟨ys, hys, hy⟩ := hy
      exact ⟨metaRoot K ys, List.mem_map_of_mem hys, (holds_wrap hK).2 ⟨y, hy, hold⟩⟩

theorem chunk_fits (c : Cycle) {k : List Item} (hk : k ∈ c.overflowChunks) :
    k ≠ [] ∧ k.length ≤ overflowChunk ∧ Ordered k ∧ ∀ e ∈ k, e.Fits :=
  have hsub := sublist_of_mem_chunks _ k hk
  ⟨ne_nil_of_mem_chunks _ k hk, length_le_of_mem_chunks (by decide) _ k hk, c.deferred_ordered.sublist hsub,
    fun e he => c.deferred_fits e (hsub.subset he)⟩

/-- The roots a cycle publishes open at their level, and hold its chunks and no others. -/
theorem overflowRoots_opens (hK : K.Ideal) (c : Cycle) : (overflowRoots K c).2 ≠ 0 ∧
    (∀ x ∈ (overflowRoots K c).1, Opens K (overflowRoots K c).2 x) ∧
    ∀ k, (∃ x ∈ (overflowRoots K c).1, Holds K (overflowRoots K c).2 x k) ↔ k ∈ c.overflowChunks := by
  have hroots := chunkRoots_eq (K := K) c
  obtain ⟨hl, hopens, hholds⟩ := wrapRoots_opens hK (foldChunkRoots K (overflowLeaves K c)) 1 one_ne_zero (by
    intro x hx
    rw [hroots] at hx
    obtain ⟨k, hk, rfl⟩ := List.mem_map.1 hx
    obtain ⟨hne, hlen, hord, hfit⟩ := chunk_fits c hk
    exact .chunk hne hlen hord hfit)
  refine ⟨hl, hopens, fun k => ?_⟩
  rw [overflowRoots, hholds k, hroots]
  constructor
  · rintro ⟨x, hx, hold⟩
    obtain ⟨k', hk', rfl⟩ := List.mem_map.1 hx
    obtain ⟨hne, -, -, hfit⟩ := chunk_fits c hk'
    rw [(holds_chunk hK hne hfit).1 hold]
    exact hk'
  · intro hk
    obtain ⟨hne, -, -, hfit⟩ := chunk_fits c hk
    exact ⟨_, List.mem_map_of_mem hk, (holds_chunk hK hne hfit).2 rfl⟩

/-! ## Histories -/

/-- A call on a pool whose batches are the guest's. -/
inductive Event
  | attest (cfg : Config) (verified : Bool) (r : BitcoinRelayPublicValues) (c : Cycle)
  | drain (d : Drain)

def Event.call (K : Keccak) : Event → QueueCall
  | attest cfg verified r c => .attest cfg verified (c.publish K r)
  | drain d => d.call

theorem attest_levelled (hK : K.Ideal) {cfg : Config} {verified : Bool} {r : BitcoinRelayPublicValues} {c : Cycle}
    {s t : Storage} {metas : List AssetMeta} (h : s.overflow.Levelled K)
    (hok : attest K cfg verified (c.publish K r) s = .ok metas t) :
    t.overflow.Levelled K ∧ ∀ k, t.overflow.Holds K k ↔ s.overflow.Holds K k ∨ k ∈ c.overflowChunks := by
  obtain ⟨-, -, -, -, -, -, -, -, hqueue⟩ := attest_ok hok
  obtain ⟨hl, hopens, hholds⟩ := overflowRoots_opens hK c
  have hlevel : (if (c.publish K r).overflowRootLevel = 0 then 1 else (c.publish K r).overflowRootLevel) =
      (overflowRoots K c).2 := if_neg hl
  rw [hlevel] at hqueue
  obtain ⟨hlev, hadd⟩ := h.enqueueAll hK (overflowRoots K c).1 hopens
  rw [hqueue]
  refine ⟨hlev, fun k => ?_⟩
  rw [← hholds k]
  exact hadd k

theorem drain_levelled (hK : K.Ideal) {d : Drain} {s t : Storage} {metas : List AssetMeta} (h : s.overflow.Levelled K)
    (hok : d.call.prog K s = .ok metas t) : t.overflow.Levelled K := by
  cases d with
  | chunk c =>
    rw [(drainOverflow_ok hok).2]
    exact h.dequeue _
  | roots subroots level =>
    simp only [Drain.call, QueueCall.prog, bind_eq_ok, pure_eq_ok] at hok
    obtain ⟨u, t', hok, -, rfl⟩ := hok
    obtain ⟨hlevel, hq, hqueue⟩ := drainOverflowRoots_ok hok
    obtain ⟨n, rfl⟩ : ∃ n, level = n + 2 := ⟨level - 2, by omega⟩
    have hopen : Opens K (n + 2) (metaRoot K subroots) := hq ▸ h _ (by omega)
    generalize hx : metaRoot K subroots = x at hopen
    cases hopen with
    | wrap _ _ hsub =>
      obtain rfl := metaRoot_injective hK hx
      rw [hqueue]
      exact ((h.dequeue _).enqueueAll hK subroots hsub).1

/-- The storage after a history. -/
def after (K : Keccak) (digest last : Word) (history : List Event) : Storage :=
  run K (Storage.deployed digest last) (history.map (Event.call K))

theorem levelled_run (hK : K.Ideal) (history : List Event) : ∀ s : Storage, s.overflow.Levelled K →
    (run K s (history.map (Event.call K))).overflow.Levelled K := by
  induction history with
  | nil => exact fun _ h => h
  | cons e history ih =>
    intro s h
    rw [List.map_cons, run_cons]
    apply ih
    rcases call_cases ((e.call K).prog K) s with hcall | ⟨metas, hok⟩
    · rwa [hcall]
    · cases e with
      | attest cfg verified r c => exact (attest_levelled hK h hok).1
      | drain d => exact drain_levelled hK h hok

theorem deployed_overflow (digest last : Word) : (Storage.deployed digest last).overflow.Levelled K ∧
    (Storage.deployed digest last).overflow.Counted :=
  ⟨fun _ hx => absurd rfl hx, ∅, by simp [Storage.deployed], rfl⟩

theorem flatMap_items (ds : List Drain) : ds.flatMap Drain.items = (ds.filterMap Drain.chunk?).flatMap Chunk.items := by
  induction ds with
  | nil => rfl
  | cons d ds ih =>
    cases d with
    | chunk c => simp [Drain.items, Drain.chunk?, ih]
    | roots subroots level => simp [Drain.items, List.filterMap_cons, Drain.chunk?, ih]

/-- What drains apply is the chunks they take. -/
theorem Empties.items {s u : Storage} {ds : List Drain} {ks : List (List Item)} (h : Empties K s ds u ks) :
    ds.flatMap Drain.items = ks.flatten := by
  rw [flatMap_items, h.chunks, List.flatMap_map, List.flatMap_def]
  congr 1
  exact (List.map_congr_left fun k hk => Chunk.items_of (h.ordered k hk)).trans (List.map_id _)

theorem Empties.chunks_nodup {s u : Storage} {ds : List Drain} {ks : List (List Item)} (h : Empties K s ds u ks) :
    (ds.filterMap Drain.chunk?).Nodup := by
  rw [h.chunks]
  refine h.nodup.map_on fun k hk k' hk' heq => ?_
  rw [← Chunk.items_of (h.ordered k hk), heq, Chunk.items_of (h.ordered k' hk')]

/-- A cycle with one call past the cap. -/
def callCycle (n : Nat) : Cycle :=
  ⟨[], [], [], [], List.replicate n (wordOfNat 7, wordOfNat 9), by simp, by simp⟩

/-- A queue with one chunk takes one drain. -/
theorem drained_single (hK : K.Ideal) {k : List Item} {s u : Storage} {ds : List Drain} (h : Drained K s ds u)
    (hq : ∀ x, s.overflow.queue x ≠ 0 → x = itemsRoot K k ∧ s.overflow.queue x = 1) :
    (ds.flatMap Drain.items).length ≤ k.length := by
  have hnone : ∀ {s u : Storage} {ds : List Drain}, Drained K s ds u → (∀ x, s.overflow.queue x = 0) → ds = [] := by
    intro s u ds h hz
    cases h with
    | nil => rfl
    | @cons _ _ _ d _ _ hok _ =>
      exfalso
      obtain ⟨x, hx⟩ : ∃ x, d.call.drained K = some x := by cases d <;> exact ⟨_, rfl⟩
      exact (QueueCall.does hK hok).drained x hx (hz x)
  cases h with
  | nil => simp
  | @cons _ t _ d ds metas hok hrest =>
    cases d with
    | chunk c =>
      obtain ⟨hc, ht⟩ := drainOverflow_ok hok
      have hroot := (hq (c.root K) (by omega)).1
      have hempty : ds = [] := by
        apply hnone hrest
        intro x
        rw [ht]
        by_cases e : x = c.root K
        · simp [Overflow.dequeue, e]
        · have hx : s.overflow.queue x = 0 := by
            by_contra hx
            exact e ((hq x hx).1.trans hroot.symm)
          simp [Overflow.dequeue, e, hx]
      have hlen : c.items.length = k.length := by
        have := congrArg List.length (chainRoot_injective hK ((congrArg (chainRoot K) c.leaves_eq).symm.trans hroot))
        simpa using this
      simp [hempty, Drain.items, hlen]
    | roots subroots level =>
      simp only [Drain.call, QueueCall.prog, bind_eq_ok, pure_eq_ok] at hok
      obtain ⟨_, _, hok, -, -⟩ := hok
      obtain ⟨hlevel, hqueue, -⟩ := drainOverflowRoots_ok hok
      have := (hq (metaRoot K subroots) (by omega)).2
      omega

theorem overflowRoots_callCycle (K : Keccak) :
    (overflowRoots K (callCycle 32)).1 = List.replicate 2 (itemsRoot K (List.replicate 8 (.call (wordOfNat 7) (wordOfNat 9)))) ∧
      (overflowRoots K (callCycle 32)).2 = 1 := by
  have hchunks : (callCycle 32).overflowChunks = List.replicate 2 (List.replicate 8 (.call (wordOfNat 7) (wordOfNat 9))) := by
    simp [Cycle.overflowChunks, Cycle.deferred, callCycle, maxBtcCallPairsSurfaced, overflowChunk, List.replicate_succ,
      chunks_cons]
  have hroots := chunkRoots_eq (K := K) (callCycle 32)
  rw [hchunks, List.map_replicate] at hroots
  rw [overflowRoots, hroots, wrapRoots, if_neg (by simp [maxOverflowRootsSurfaced])]
  exact ⟨rfl, rfl⟩

end ReflectionLib

end Tacit
