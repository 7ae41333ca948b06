import Tacit.Imt
import Tacit.Lib.Tombstones
/-!
# The outpoint accumulator and its witnessed transitions (lib.rs:3193-3340)

`UtxoAccumulator` keeps every node it ever inserted; a spent one is unlinked and hashes to the zero leaf.
`utxo_insert_transition` and `utxo_remove_transition` do the same to a root they know nothing about, with links,
indices and paths chosen by the prover. `Sound` is what every run of the accumulator keeps: its live nodes are a
sorted linked list behind the sentinel, whose value is zero.
-/
namespace Tacit

open SortedLinks Tombstones

/-- `utxo_remove_transition` (lib.rs:3227). -/
def utxoRemoveTransition (K : Keccak) (priorRoot key nodeNext nodeValue : Word) (nodeIndex : Nat)
    (nodePath : List Word) (predKey predValue : Word) (predIndex : Nat) (predPath : List Word) : Option Word :=
  if !keccakMerkleVerify K (utxoLeaf K predKey key predValue) predIndex predPath priorRoot then none
  else do
    let intermediate ← merkleRootFrom K (utxoLeaf K predKey nodeNext predValue) predIndex predPath
    if !keccakMerkleVerify K (utxoLeaf K key nodeNext nodeValue) nodeIndex nodePath intermediate then none
    else merkleRootFrom K 0 nodeIndex nodePath

/-- One entry of `UtxoAccumulator::nodes`. -/
structure UtxoNode where
  key : Word
  next : Word
  value : Word
  alive : Bool

/-- `UtxoAccumulator` (lib.rs:3257). -/
structure UtxoAccumulator where
  nodes : List UtxoNode

namespace UtxoAccumulator

/-- `new` (lib.rs:3271). -/
def new : UtxoAccumulator := ⟨[⟨0, 0, 0, true⟩]⟩

/-- `leaf_at` (lib.rs:3275). -/
def leafAt (K : Keccak) (n : UtxoNode) : Word := if n.alive then utxoLeaf K n.key n.next n.value else 0

/-- `low_index` (lib.rs:3281). -/
def lowIndex (a : UtxoAccumulator) (key : Word) : Option Nat :=
  a.nodes.findIdx? fun n => n.alive && beLt n.key key && (n.next == 0 || beLt key n.next)

/-- `find` (lib.rs:3286). -/
def find (a : UtxoAccumulator) (key : Word) : Option Nat := a.nodes.findIdx? fun n => n.alive && n.key == key

/-- `pred_of` (lib.rs:3290). -/
def predOf (a : UtxoAccumulator) (key : Word) : Option Nat := a.nodes.findIdx? fun n => n.alive && n.next == key

/-- `insert` (lib.rs:3295); `none` = one of its two panics. -/
def insert (a : UtxoAccumulator) (key value : Word) : Option UtxoAccumulator :=
  if key = 0 then none
  else do
    let i ← a.lowIndex key
    let low ← a.nodes[i]?
    some ⟨a.nodes.set i { low with next := key } ++ [⟨key, low.next, value, true⟩]⟩

/-- `get` (lib.rs:3304). -/
def get (a : UtxoAccumulator) (key : Word) : Option Word := do
  let i ← a.find key
  let n ← a.nodes[i]?
  some n.value

/-- `remove` (lib.rs:3310); `none` = one of its two panics. The node is read again for the tombstone: it is the
rewired predecessor if the two are one node. -/
def remove (a : UtxoAccumulator) (key : Word) : Option UtxoAccumulator := do
  let i ← a.find key
  let p ← a.predOf key
  let removed ← a.nodes[i]?
  let pred ← a.nodes[p]?
  let nodes := a.nodes.set p { pred with next := removed.next }
  let node ← nodes[i]?
  some ⟨nodes.set i { node with alive := false }⟩

/-- `root` (lib.rs:3318). -/
def root (K : Keccak) (a : UtxoAccumulator) : Word := keccakMerkleRoot K (a.nodes.map (leafAt K))

/-- `len` (lib.rs:3349). -/
def len (a : UtxoAccumulator) : Nat := a.nodes.length

end UtxoAccumulator

/-! ## Nodes as slots -/

/-- A live node as a link. -/
def UtxoNode.link (n : UtxoNode) : Option (Link Word Word) :=
  if n.alive then some ⟨n.key, n.next, n.value⟩ else none

theorem UtxoNode.link_eq_some {n : UtxoNode} {p : Link Word Word} :
    n.link = some p ↔ n.alive = true ∧ n.key = p.key ∧ n.next = p.next ∧ n.value = p.val := by
  obtain ⟨k, x, v, b⟩ := n
  obtain ⟨k', x', v'⟩ := p
  cases b <;> simp [link]

namespace UtxoAccumulator

/-- The nodes as the slots of a tree. -/
def slots (a : UtxoAccumulator) : List (Option (Link Word Word)) := a.nodes.map UtxoNode.link

/-- The keys of the live nodes, the sentinel's among them. -/
def liveKeys (a : UtxoAccumulator) : List Word := keys (live a.slots)

variable {K : Keccak} {a a' : UtxoAccumulator} {key value : Word} {i j : Nat} {p : Link Word Word}

@[simp] theorem slots_length : a.slots.length = a.len := by simp [slots, len]

theorem slot_eq : a.slots[i]? = some (some p) ↔ ∃ n, a.nodes[i]? = some n ∧ n.link = some p := by
  simp [slots, List.getElem?_map, Option.map_eq_some_iff]

theorem root_eq : a.root K = slotRoot (utxoHashing K) 32 a.slots := by
  have hl : a.nodes.map (leafAt K) = a.slots.map (slotLeaf (utxoHashing K)) := by
    rw [slots, List.map_map]
    refine List.map_congr_left fun n _ => ?_
    obtain ⟨k, x, v, b⟩ := n
    cases b <;> rfl
  rw [root, keccakMerkleRoot_eq, slotRoot, hl]
  rfl

/-- `position` of a test on the live nodes finds a live node that passes it. -/
theorem position_some {f : UtxoNode → Bool} {P : Link Word Word → Prop}
    (hf : ∀ n, f n = true ↔ ∃ p, n.link = some p ∧ P p) (h : a.nodes.findIdx? f = some i) :
    ∃ p, a.slots[i]? = some (some p) ∧ P p := by
  obtain ⟨hi, hfi, -⟩ := List.findIdx?_eq_some_iff_getElem.1 h
  obtain ⟨p, hp, hP⟩ := (hf _).1 hfi
  exact ⟨p, slot_eq.2 ⟨_, List.getElem?_eq_getElem hi, hp⟩, hP⟩

/-- The one live node that passes the test is found. -/
theorem position_eq {f : UtxoNode → Bool} {P : Link Word Word → Prop}
    (hf : ∀ n, f n = true ↔ ∃ p, n.link = some p ∧ P p) (hi : a.slots[i]? = some (some p)) (hp : P p)
    (hu : ∀ j q, a.slots[j]? = some (some q) → P q → j = i) : a.nodes.findIdx? f = some i := by
  obtain ⟨n, hn, hl⟩ := slot_eq.1 hi
  obtain ⟨hil, rfl⟩ := List.getElem?_eq_some_iff.1 hn
  refine List.findIdx?_eq_some_iff_getElem.2 ⟨hil, (hf _).2 ⟨p, hl, hp⟩, ?_⟩
  intro j hj hfj
  obtain ⟨q, hq, hP⟩ := (hf _).1 hfj
  have := hu j q (slot_eq.2 ⟨_, List.getElem?_eq_getElem (by omega), hq⟩) hP
  omega

theorem position_none {f : UtxoNode → Bool} {P : Link Word Word → Prop}
    (hf : ∀ n, f n = true ↔ ∃ p, n.link = some p ∧ P p) (h : a.nodes.findIdx? f = none)
    (hi : a.slots[i]? = some (some p)) : ¬ P p := by
  intro hp
  obtain ⟨n, hn, hl⟩ := slot_eq.1 hi
  have := List.findIdx?_eq_none_iff.1 h n (List.mem_of_getElem? hn)
  rw [(hf n).2 ⟨p, hl, hp⟩] at this
  cases this

theorem low_test (key : Word) (n : UtxoNode) :
    (n.alive && beLt n.key key && (n.next == 0 || beLt key n.next)) = true ↔
      ∃ p, n.link = some p ∧ Straddles p key := by
  obtain ⟨k, x, v, b⟩ := n
  cases b <;> simp [UtxoNode.link, Straddles, bot_eq_zero]

theorem find_test (key : Word) (n : UtxoNode) :
    (n.alive && n.key == key) = true ↔ ∃ p, n.link = some p ∧ p.key = key := by
  obtain ⟨k, x, v, b⟩ := n
  cases b <;> simp [UtxoNode.link]

theorem pred_test (key : Word) (n : UtxoNode) :
    (n.alive && n.next == key) = true ↔ ∃ p, n.link = some p ∧ p.next = key := by
  obtain ⟨k, x, v, b⟩ := n
  cases b <;> simp [UtxoNode.link]

/-! ## What the operations do to the slots -/

theorem slots_set_next {n : UtxoNode} (hn : n.link = some p) (x : Word) :
    (a.nodes.set i { n with next := x }).map UtxoNode.link = a.slots.set i (some { p with next := x }) := by
  obtain ⟨ha, hk, -, hv⟩ := UtxoNode.link_eq_some.1 hn
  rw [List.map_set, slots]
  congr 1
  exact UtxoNode.link_eq_some.2 ⟨ha, hk, rfl, hv⟩

/-- The slots after the two writes of an insert. -/
theorem slots_inserted {n : UtxoNode} (hn : n.link = some p) :
    (⟨a.nodes.set i { n with next := key } ++ [⟨key, n.next, value, true⟩]⟩ : UtxoAccumulator).slots =
      insertSlot a.slots i p key value := by
  show List.map UtxoNode.link _ = _
  rw [List.map_append, slots_set_next hn, insertSlot, ← (UtxoNode.link_eq_some.1 hn).2.2.1]
  rfl

/-- An insert goes through a straddling node. -/
theorem insert_some (h : a.insert key value = some a') :
    ∃ i p, a.slots[i]? = some (some p) ∧ Straddles p key ∧ a'.slots = insertSlot a.slots i p key value := by
  unfold insert at h
  split at h
  · cases h
  obtain ⟨i, hi, h⟩ := Option.bind_eq_some_iff.1 h
  obtain ⟨n, hn, h⟩ := Option.bind_eq_some_iff.1 h
  cases h
  obtain ⟨p, hp, hs⟩ := position_some (low_test key) hi
  obtain ⟨n', hn', hl⟩ := slot_eq.1 hp
  cases hn.symm.trans hn'
  exact ⟨i, p, hp, hs, slots_inserted hl⟩

/-- Through the straddling node there is an insert. -/
theorem exists_insert (h : Chained a.slots) (hi : a.slots[i]? = some (some p)) (hs : Straddles p key)
    (value : Word) : ∃ a', a.insert key value = some a' ∧ a'.slots = insertSlot a.slots i p key value := by
  have h0 : key ≠ 0 := fun e => not_lt_bot (e ▸ hs.1)
  have hlow : a.lowIndex key = some i := by
    refine position_eq (low_test key) hi hs fun j q hj hq => ?_
    exact h.slot_unique hj hi (h.linked.straddles_unique (mem_live.2 ⟨j, hj⟩) (mem_live.2 ⟨i, hi⟩) hq hs)
  obtain ⟨n, hn, hl⟩ := slot_eq.1 hi
  refine ⟨_, ?_, slots_inserted hl⟩
  simp only [insert, if_neg h0, hlow, hn, Option.bind_eq_bind, Option.bind_some]

/-- The slots after the two writes of a remove. -/
theorem slots_removed {n pn m : UtxoNode} {q : Link Word Word} (hn : n.link = some q) (hp : pn.link = some p) :
    (⟨(a.nodes.set j { pn with next := n.next }).set i { m with alive := false }⟩ : UtxoAccumulator).slots =
      removeSlot a.slots j p i q.next := by
  show List.map UtxoNode.link _ = _
  rw [List.map_set, slots_set_next hp, removeSlot, (UtxoNode.link_eq_some.1 hn).2.2.1]
  rfl

/-- A remove takes a live node out and rewires one that points at it. -/
theorem remove_some (h : a.remove key = some a') :
    ∃ i j p q, a.slots[i]? = some (some q) ∧ q.key = key ∧ a.slots[j]? = some (some p) ∧ p.next = key ∧
      a'.slots = removeSlot a.slots j p i q.next := by
  unfold remove at h
  obtain ⟨i, hi, h⟩ := Option.bind_eq_some_iff.1 h
  obtain ⟨j, hj, h⟩ := Option.bind_eq_some_iff.1 h
  obtain ⟨n, hn, h⟩ := Option.bind_eq_some_iff.1 h
  obtain ⟨pn, hpn, h⟩ := Option.bind_eq_some_iff.1 h
  obtain ⟨m, hm, h⟩ := Option.bind_eq_some_iff.1 h
  cases h
  obtain ⟨q, hq, hqk⟩ := position_some (find_test key) hi
  obtain ⟨p, hp, hpk⟩ := position_some (pred_test key) hj
  obtain ⟨n', hn', hql⟩ := slot_eq.1 hq
  obtain ⟨pn', hpn', hpl⟩ := slot_eq.1 hp
  cases hn.symm.trans hn'
  cases hpn.symm.trans hpn'
  exact ⟨i, j, p, q, hq, hqk, hp, hpk, slots_removed hql hpl⟩

/-- A live node other than the sentinel and the node before it are removed. -/
theorem exists_remove {q : Link Word Word} (h : Chained a.slots) (hi : a.slots[i]? = some (some q))
    (hj : a.slots[j]? = some (some p)) (hpq : p.next = q.key) (h0 : q.key ≠ 0) :
    ∃ a', a.remove q.key = some a' ∧ a'.slots = removeSlot a.slots j p i q.next := by
  have hfind : a.find q.key = some i :=
    position_eq (find_test q.key) hi rfl fun k r hk hr => h.slot_unique hk hi hr
  have hpred : a.predOf q.key = some j := by
    refine position_eq (pred_test q.key) hj hpq fun k r hk hr => ?_
    exact h.slot_unique hk hj (h.linked.pred_unique (mem_live.2 ⟨k, hk⟩) (mem_live.2 ⟨j, hj⟩)
      (by rw [hr]; exact h0) (hr.trans hpq.symm))
  obtain ⟨n, hn, hql⟩ := slot_eq.1 hi
  obtain ⟨pn, hpn, hpl⟩ := slot_eq.1 hj
  obtain ⟨hil, -⟩ := List.getElem?_eq_some_iff.1 hn
  obtain ⟨m, hm⟩ : ∃ m, (a.nodes.set j { pn with next := n.next })[i]? = some m :=
    ⟨_, List.getElem?_eq_getElem (by simpa using hil)⟩
  refine ⟨_, ?_, slots_removed (m := m) hql hpl⟩
  simp only [remove, hfind, hpred, hn, hpn, hm, Option.bind_eq_bind, Option.bind_some]

/-! ## Lookup -/

theorem get_eq_some (h : Chained a.slots) :
    a.get key = some value ↔ ∃ (i : Nat) (next : Word), a.slots[i]? = some (some ⟨key, next, value⟩) := by
  constructor
  · intro hg
    obtain ⟨i, hi, hg⟩ := Option.bind_eq_some_iff.1 hg
    obtain ⟨n, hn, hg⟩ := Option.bind_eq_some_iff.1 hg
    cases hg
    obtain ⟨p, hp, rfl⟩ := position_some (find_test key) hi
    obtain ⟨n', hn', hl⟩ := slot_eq.1 hp
    cases hn.symm.trans hn'
    exact ⟨i, p.next, by rw [hp, (UtxoNode.link_eq_some.1 hl).2.2.2]⟩
  · rintro ⟨i, next, hi⟩
    have hfind : a.find key = some i :=
      position_eq (find_test key) hi rfl fun k r hk hr => h.slot_unique hk hi hr
    obtain ⟨n, hn, hl⟩ := slot_eq.1 hi
    simp only [get, hfind, hn, Option.bind_eq_bind, Option.bind_some]
    rw [(UtxoNode.link_eq_some.1 hl).2.2.2]

theorem mem_liveKeys : key ∈ a.liveKeys ↔ ∃ (i : Nat) (p : Link Word Word), a.slots[i]? = some (some p) ∧ p.key = key := by
  rw [liveKeys, keys, List.mem_map]
  constructor
  · rintro ⟨p, hp, rfl⟩
    obtain ⟨i, hi⟩ := mem_live.1 hp
    exact ⟨i, p, hi, rfl⟩
  · rintro ⟨i, p, hi, rfl⟩
    exact ⟨p, mem_live.2 ⟨i, hi⟩, rfl⟩

theorem get_eq_none (h : Chained a.slots) : a.get key = none ↔ key ∉ a.liveKeys := by
  rw [Option.eq_none_iff_forall_not_mem]
  constructor
  · rintro hg hm
    obtain ⟨i, p, hi, rfl⟩ := mem_liveKeys.1 hm
    exact hg p.val ((get_eq_some h).2 ⟨i, p.next, hi⟩)
  · intro hm v hg
    obtain ⟨i, next, hi⟩ := (get_eq_some h).1 hg
    exact hm (mem_liveKeys.2 ⟨i, _, hi, rfl⟩)

/-! ## Reachable accumulators -/

/-- The accumulators that inserts, and removes of keys other than the sentinel's, build. -/
inductive Reachable : UtxoAccumulator → Prop
  | new : Reachable new
  | insert {a a' : UtxoAccumulator} {key value : Word} : Reachable a → a.insert key value = some a' → Reachable a'
  | remove {a a' : UtxoAccumulator} {key : Word} : Reachable a → key ≠ 0 → a.remove key = some a' → Reachable a'

/-- The live nodes are a sorted linked list, and the sentinel's value is zero. -/
structure Sound (a : UtxoAccumulator) : Prop where
  chained : Chained a.slots
  sentinel : ∀ p ∈ live a.slots, p.key = 0 → p.val = 0

theorem sound_new : new.Sound := by
  refine ⟨chained_empty (κ := Word) 0, ?_⟩
  intro p hp _
  obtain rfl : p = ⟨0, 0, 0⟩ := by simpa [new, slots, UtxoNode.link] using hp
  rfl

theorem Sound.insertSlot (h : a.Sound) (hi : a.slots[i]? = some (some p)) (hs : Straddles p key)
    (ha : a'.slots = insertSlot a.slots i p key value) : a'.Sound := by
  have hp : p ∈ live a.slots := mem_live.2 ⟨i, hi⟩
  obtain ⟨k, hk, he⟩ := live_insertSlot hi key value
  refine ⟨ha ▸ h.chained.insertSlot hi hs value, ?_⟩
  intro q hq h0
  rw [ha, he] at hq
  rcases mem_insertAt hk h.chained.nodup hq with rfl | rfl | ⟨hq, -⟩
  · exact h.sentinel p hp h0
  · have hk0 : key = 0 := h0
    exact absurd hs.1 (hk0 ▸ not_lt_bot)
  · exact h.sentinel q hq h0

theorem Sound.removeSlot {q : Link Word Word} (h : a.Sound) (hi : a.slots[i]? = some (some q))
    (hj : a.slots[j]? = some (some p)) (hpq : p.next = q.key) (h0 : q.key ≠ 0)
    (ha : a'.slots = removeSlot a.slots j p i q.next) : a'.Sound := by
  refine ⟨ha ▸ h.chained.removeSlot hj hi hpq h0, ?_⟩
  intro r hr hr0
  rw [ha] at hr
  rcases h.chained.mem_removeSlot hj hr with rfl | ⟨hr, -⟩
  · exact h.sentinel p (mem_live.2 ⟨j, hj⟩) hr0
  · exact h.sentinel r hr hr0

theorem Sound.insert (h : a.Sound) (hi : a.insert key value = some a') : a'.Sound ∧ a'.len = a.len + 1 := by
  obtain ⟨i, p, hp, hs, ha⟩ := insert_some hi
  refine ⟨h.insertSlot hp hs ha, ?_⟩
  rw [← slots_length, ha, Tombstones.insertSlot, List.length_append, List.length_set, slots_length]
  rfl

theorem Sound.remove (h : a.Sound) (h0 : key ≠ 0) (hr : a.remove key = some a') : a'.Sound ∧ a'.len = a.len := by
  obtain ⟨i, j, p, q, hq, rfl, hp, hpk, ha⟩ := remove_some hr
  refine ⟨h.removeSlot hq hp hpk h0 ha, ?_⟩
  rw [← slots_length, ha, Tombstones.removeSlot, List.length_set, List.length_set, slots_length]

/-- **Run invariant** of the accumulator. -/
theorem Reachable.sound (h : Reachable a) : a.Sound := by
  induction h with
  | new => exact sound_new
  | insert _ hi ih => exact (ih.insert hi).1
  | remove _ h0 hr ih => exact (ih.remove h0 hr).1

/-! ## The witnessed transitions -/

theorem removeTransition_eq_some {r nodeNext nodeValue predKey predValue r' : Word} {nodeIndex predIndex : Nat}
    {nodePath predPath : List Word} :
    utxoRemoveTransition K r key nodeNext nodeValue nodeIndex nodePath predKey predValue predIndex predPath = some r' ↔
      Removes (utxoHashing K) 32 r key nodeNext nodeValue nodeIndex nodePath predKey predValue predIndex predPath r' := by
  constructor
  · intro h
    unfold utxoRemoveTransition at h
    split at h
    · cases h
    rename_i hpred
    obtain ⟨m, hm, h⟩ := Option.bind_eq_some_iff.1 h
    split at h
    · cases h
    rename_i hnode
    obtain ⟨hpl, hpred⟩ := keccakMerkleVerify_iff.1 (by simpa using hpred)
    obtain ⟨hnl, hnode⟩ := keccakMerkleVerify_iff.1 (by simpa using hnode)
    obtain ⟨-, rfl⟩ := merkleRootFrom_eq_some.1 hm
    exact ⟨hpl, hnl, hpred, hnode, (merkleRootFrom_eq_some.1 h).2⟩
  · rintro ⟨hpl, hnl, hpred, hnode, hclear⟩
    have hv := keccakMerkleVerify_iff.2 ⟨hpl, hpred⟩
    have hv' := keccakMerkleVerify_iff.2 ⟨hnl, hnode⟩
    have hm : merkleRootFrom K (utxoLeaf K predKey nodeNext predValue) predIndex predPath = some _ :=
      merkleRootFrom_eq_some.2 ⟨hpl, rfl⟩
    unfold utxoRemoveTransition
    rw [if_neg (by simpa [utxoHashing] using hv), hm, Option.bind_eq_bind, Option.bind_some,
      if_neg (by simpa [utxoHashing] using hv')]
    exact merkleRootFrom_eq_some.2 ⟨hnl, hclear⟩

section Refinement

variable {lowKey lowNext lowValue r' : Word} {lowIndex : Nat} {lowPath newPath : List Word}

/-- **Accepted inserts refine `insert`.** Whatever the witness, an insert accepted at the accumulator's own next
slot is legal and returns the root the accumulator has after it. -/
theorem Sound.insert_refines (hK : K.Ideal) (h : a.Sound) (hl : a.len ≤ 2 ^ 32)
    (hacc : utxoInsertTransition K (a.root K) key value lowKey lowNext lowValue lowIndex lowPath a.len newPath =
      some r') :
    a.get key = none ∧ a.len < 2 ^ 32 ∧ ∃ a', a.insert key value = some a' ∧ a'.root K = r' := by
  have hI := utxoInsertTransition_eq_some.1 hacc
  rw [root_eq, ← slots_length] at hI
  rw [← slots_length] at hl
  have hlt := h.chained.lt_of_inserts (utxoHashing_ideal hK) hl hI
  obtain ⟨hlow, rfl⟩ := insert_root (utxoHashing_ideal hK) hlt hI
  have hnone : key ∉ a.liveKeys := h.chained.linked.not_mem_of_straddles (mem_live.2 ⟨_, hlow⟩) hI.straddles
  obtain ⟨a', ha', hs'⟩ := exists_insert h.chained hlow hI.straddles value
  rw [slots_length] at hlt
  exact ⟨(get_eq_none h.chained).2 hnone, hlt, a', ha', by rw [root_eq, hs']⟩

/-- A legal insert has an accepted witness while a slot is left. -/
theorem Sound.exists_insert_witness (hK : K.Ideal) (h : a.Sound) (hl : a.len < 2 ^ 32)
    (hg : a.get key = none) (value : Word) :
    ∃ lowKey lowNext lowValue lowIndex lowPath newPath r',
      utxoInsertTransition K (a.root K) key value lowKey lowNext lowValue lowIndex lowPath a.len newPath = some r' := by
  obtain ⟨p, hp, hs⟩ := h.chained.linked.exists_straddles ((get_eq_none h.chained).1 hg)
  obtain ⟨i, hi⟩ := mem_live.1 hp
  obtain ⟨lowPath, newPath, r', hI⟩ := Tombstones.exists_insert (d := 32) (utxoHashing_ideal hK)
    (by rw [slots_length]; exact hl) hi hs value
  rw [← root_eq, slots_length] at hI
  exact ⟨p.key, p.next, p.val, i, lowPath, newPath, r', utxoInsertTransition_eq_some.2 hI⟩

variable {nodeNext nodeValue predKey predValue : Word} {nodeIndex predIndex : Nat} {nodePath predPath : List Word}

/-- **Accepted removes refine `remove`**, whatever the witness. -/
theorem Sound.remove_refines (hK : K.Ideal) (h : a.Sound) (h0 : key ≠ 0)
    (hacc : utxoRemoveTransition K (a.root K) key nodeNext nodeValue nodeIndex nodePath predKey predValue predIndex
      predPath = some r') :
    a.get key = some nodeValue ∧ ∃ a', a.remove key = some a' ∧ a'.root K = r' := by
  have hR := removeTransition_eq_some.1 hacc
  rw [root_eq] at hR
  obtain ⟨hpred, hnode, rfl⟩ := hR.root_eq (utxoHashing_ideal hK) h.chained h0
  obtain ⟨a', ha', hs'⟩ := exists_remove h.chained hnode hpred rfl h0
  exact ⟨(get_eq_some h.chained).2 ⟨_, _, hnode⟩, a', ha', by rw [root_eq, hs']⟩

/-- A legal remove has an accepted witness. -/
theorem Sound.exists_remove_witness (hK : K.Ideal) (h : a.Sound) (hl : a.len ≤ 2 ^ 32) (h0 : key ≠ 0)
    (hg : a.get key = some value) :
    ∃ nodeNext nodeIndex nodePath predKey predValue predIndex predPath r',
      utxoRemoveTransition K (a.root K) key nodeNext value nodeIndex nodePath predKey predValue predIndex predPath =
        some r' := by
  obtain ⟨i, next, hi⟩ := (get_eq_some h.chained).1 hg
  obtain ⟨path, pred, predVal, j, predPath, r', hR⟩ := h.chained.exists_remove (d := 32) (utxoHashing_ideal hK)
    (by rw [slots_length]; exact hl) h0 hi
  rw [← root_eq] at hR
  exact ⟨next, i, path, pred, predVal, j, predPath, r', removeTransition_eq_some.2 hR⟩

/-- The sentinel's slot has the value zero, so a remove with another value is of another key. -/
theorem Sound.ne_zero_of_remove (hK : K.Ideal) (h : a.Sound) (hv : nodeValue ≠ 0)
    (hacc : utxoRemoveTransition K (a.root K) key nodeNext nodeValue nodeIndex nodePath predKey predValue predIndex
      predPath = some r') : key ≠ 0 := by
  rintro rfl
  have hR := removeTransition_eq_some.1 hacc
  rw [root_eq] at hR
  obtain ⟨hpred, hnode, -⟩ := hR.slots (utxoHashing_ideal hK)
  rcases hnode with hnode | ⟨-, rfl, rfl⟩
  · exact hv (h.sentinel _ (mem_live.2 ⟨_, hnode⟩) rfl)
  · exact hv (h.sentinel _ (mem_live.2 ⟨_, hpred⟩) rfl)

end Refinement

/-! ## Where the two part

The transitions do not know how many nodes the accumulator has, and the tree has `2 ^ 32` slots. -/

section Limits

/-- A dead first node: what `remove` makes of the sentinel. -/
def unseated : UtxoAccumulator := ⟨[⟨0, 0, 0, false⟩]⟩

/-- The transition takes any empty slot, not only the accumulator's next one. -/
theorem insert_past_next (hK : K.Ideal) (h0 : key ≠ 0) (value : Word) :
    ∃ lowPath newPath r' a', utxoInsertTransition K (new.root K) key value 0 0 0 0 lowPath (new.len + 1) newPath = some r' ∧
      new.insert key value = some a' ∧ a'.root K ≠ r' := by
  have hs : Straddles (⟨0, 0, 0⟩ : Link Word Word) key := ⟨bot_lt_iff_ne_bot.2 h0, Or.inl rfl⟩
  have hlow : new.slots[0]? = some (some ⟨0, 0, 0⟩) := rfl
  obtain ⟨a', ha', hslots⟩ := exists_insert sound_new.chained hlow hs value
  have hlow' : (new.slots ++ [none])[0]? = some (some ⟨0, 0, 0⟩) := rfl
  obtain ⟨lowPath, newPath, r', hI⟩ := Tombstones.exists_insert (d := 32) (s := new.slots ++ [none])
    (utxoHashing_ideal hK) (by simp [slots, new]) hlow' hs value
  obtain ⟨-, rfl⟩ := insert_root (utxoHashing_ideal hK) (by simp [slots, new]) hI
  rw [slotRoot_append_none, ← root_eq] at hI
  refine ⟨lowPath, newPath, _, a', utxoInsertTransition_eq_some.2 hI, ha', ?_⟩
  -- slot 1 holds the node in one tree and is empty in the other
  rw [root_eq, hslots]
  intro he
  have := Merkle.treeRoot_injective (utxoHashing_ideal hK).node_inj he (i := 1) (by decide)
  exact (utxoHashing_ideal hK).leaf_ne _ this

theorem Sound.liveKeys_insert (h : a.insert key value = some a') : a'.liveKeys = a.liveKeys ++ [key] := by
  obtain ⟨i, p, hp, -, ha⟩ := insert_some h
  obtain ⟨j, hj, he⟩ := live_insertSlot hp key value
  rw [liveKeys, ha, he, keys_insertAt hj]
  rfl

theorem Sound.exists_insert_of_get (h : a.Sound) (hg : a.get key = none) (value : Word) :
    ∃ a', a.insert key value = some a' := by
  obtain ⟨p, hp, hs⟩ := h.chained.linked.exists_straddles ((get_eq_none h.chained).1 hg)
  obtain ⟨i, hi⟩ := mem_live.1 hp
  obtain ⟨a', ha', -⟩ := exists_insert h.chained hi hs value
  exact ⟨a', ha'⟩

/-- An insert puts no tombstone. -/
theorem slots_ne_none_insert (h : a.insert key value = some a') (hs : ∀ o ∈ a.slots, o ≠ none) :
    ∀ o ∈ a'.slots, o ≠ none := by
  obtain ⟨i, p, -, -, ha⟩ := insert_some h
  intro o ho
  rw [ha, insertSlot, List.mem_append, List.mem_singleton] at ho
  rcases ho with ho | rfl
  · rcases List.mem_or_eq_of_mem_set ho with ho | rfl
    · exact hs o ho
    · simp
  · simp

/-- Inserts alone fill any number of slots. -/
theorem exists_reachable (n : Nat) (hn : n < 256 ^ 32) :
    ∃ a : UtxoAccumulator, a.Reachable ∧ a.len = n + 1 ∧ (∀ o ∈ a.slots, o ≠ none) ∧
      ∀ k ∈ a.liveKeys, ∃ m ≤ n, k = wordOfNat m := by
  induction n with
  | zero =>
    refine ⟨new, .new, rfl, by simp [slots, new, UtxoNode.link], ?_⟩
    intro k hk
    refine ⟨0, le_refl 0, ?_⟩
    obtain rfl : k = 0 := by simpa [liveKeys, slots, new, UtxoNode.link, keys] using hk
    rfl
  | succ n ih =>
    obtain ⟨a, ha, hlen, hs, hk⟩ := ih (by omega)
    have hg : a.get (wordOfNat (n + 1)) = none := by
      refine (get_eq_none ha.sound.chained).2 fun hm => ?_
      obtain ⟨m, hm, he⟩ := hk _ hm
      have := wordOfNat_inj hn (by omega) he
      omega
    obtain ⟨a', ha'⟩ := ha.sound.exists_insert_of_get hg 0
    refine ⟨a', ha.insert ha', by rw [(ha.sound.insert ha').2, hlen], slots_ne_none_insert ha' hs, ?_⟩
    intro k hk'
    rw [Sound.liveKeys_insert ha', List.mem_append, List.mem_singleton] at hk'
    rcases hk' with hk' | rfl
    · obtain ⟨m, hm, rfl⟩ := hk k hk'
      exact ⟨m, by omega, rfl⟩
    · exact ⟨n + 1, le_refl _, rfl⟩

/-- A full accumulator: an absent key that no witness inserts. -/
theorem full_refuses_insert (hK : K.Ideal) :
    ∃ a : UtxoAccumulator, a.Reachable ∧ a.len = 2 ^ 32 ∧ ∃ key, key ≠ 0 ∧ a.get key = none ∧
      ∀ value lowKey lowNext lowValue lowIndex lowPath newIndex newPath,
        utxoInsertTransition K (a.root K) key value lowKey lowNext lowValue lowIndex lowPath newIndex newPath = none := by
  obtain ⟨a, ha, hlen, hs, hk⟩ := exists_reachable (2 ^ 32 - 1) (by decide)
  have hg : a.get (wordOfNat (2 ^ 32)) = none := by
    refine (get_eq_none ha.sound.chained).2 fun hm => ?_
    obtain ⟨m, hm, he⟩ := hk _ hm
    have := wordOfNat_inj (by decide) (lt_of_le_of_lt hm (by decide)) he
    omega
  refine ⟨a, ha, hlen, wordOfNat (2 ^ 32), ?_, hg, ?_⟩
  · intro e
    have := wordOfNat_inj (n := 2 ^ 32) (m := 0) (by decide) (by decide) e
    omega
  · intro value lowKey lowNext lowValue lowIndex lowPath newIndex newPath
    by_contra hne
    obtain ⟨r', hr'⟩ := Option.ne_none_iff_exists'.1 hne
    have hI := utxoInsertTransition_eq_some.1 hr'
    rw [root_eq] at hI
    exact not_inserts_of_full (utxoHashing_ideal hK) (by rw [slots_length, hlen]; omega) hs hI

/-- A node past the last slot of the tree is present and no witness removes it. -/
theorem past_last_refuses_remove (hK : K.Ideal) :
    ∃ a : UtxoAccumulator, a.Reachable ∧ ∃ key value, key ≠ 0 ∧ a.get key = some value ∧
      ∀ nodeNext nodeValue nodeIndex nodePath predKey predValue predIndex predPath,
        utxoRemoveTransition K (a.root K) key nodeNext nodeValue nodeIndex nodePath predKey predValue predIndex
          predPath = none := by
  obtain ⟨a, ha, hlen, key, h0, hg, -⟩ := full_refuses_insert hK
  obtain ⟨a', ha'⟩ := ha.sound.exists_insert_of_get hg 0
  obtain ⟨i, p, -, -, hslots⟩ := insert_some ha'
  have hlast : a'.slots[2 ^ 32]? = some (some ⟨key, p.next, 0⟩) := by
    rw [hslots, insertSlot, List.getElem?_append_right (by rw [List.length_set, slots_length, hlen]), List.length_set,
      slots_length, hlen, Nat.sub_self]
    rfl
  have hsound := (ha.sound.insert ha').1
  refine ⟨a', ha.insert ha', key, 0, h0, (get_eq_some hsound.chained).2 ⟨_, _, hlast⟩, ?_⟩
  intro nodeNext nodeValue nodeIndex nodePath predKey predValue predIndex predPath
  by_contra hne
  obtain ⟨r', hr'⟩ := Option.ne_none_iff_exists'.1 hne
  have hR := removeTransition_eq_some.1 hr'
  rw [root_eq] at hR
  obtain ⟨-, hnode, -⟩ := hR.root_eq (utxoHashing_ideal hK) hsound.chained h0
  have hi := hsound.chained.slot_unique hnode hlast rfl
  have hlt := Nat.mod_lt nodeIndex (Nat.two_pow_pos 32)
  omega

/-- `remove` takes the sentinel too; then no key can be inserted. -/
theorem unseated_refuses_insert (hK : K.Ideal) (key : Word) :
    new.remove 0 = some unseated ∧ unseated.get key = none ∧
      ∀ value lowKey lowNext lowValue lowIndex lowPath newIndex newPath,
        utxoInsertTransition K (unseated.root K) key value lowKey lowNext lowValue lowIndex lowPath newIndex newPath =
          none := by
  refine ⟨rfl, by simp [get, find, unseated], ?_⟩
  intro value lowKey lowNext lowValue lowIndex lowPath newIndex newPath
  by_contra hne
  obtain ⟨r', hr'⟩ := Option.ne_none_iff_exists'.1 hne
  have hI := utxoInsertTransition_eq_some.1 hr'
  rw [root_eq] at hI
  have hlow := slot_spec (utxoHashing_ideal hK) hI.lowLen hI.lowIn
  obtain ⟨n, hn, hl⟩ := slot_eq.1 hlow
  obtain rfl : n = ⟨0, 0, 0, false⟩ := by
    have := List.mem_of_getElem? hn
    simpa [unseated] using this
  cases hl

end Limits

end UtxoAccumulator

end Tacit
